import BrokerWire.Duration
import BrokerWire.Error
import BrokerWire.Link.Stream

/-!
# Links

A link is a client's connection to one broker that is established again in the background whenever
it is lost. Calls to read and write wait until there is a connection. Reads take turns for the
whole link, so that one read's bytes are never mixed with another's, and writes take turns for
each connection, so that frames stay whole.

This module holds the state of a link. Everything that happens to it is an event, see
`BrokerWire.Link.Event`; what a call or a task does between two waits is one event.
-/

namespace BrokerWire

namespace Link

/-- How a link connects. -/
structure Config where
  /-- The wait before the first attempt. -/
  connectDelay : Duration := .ofMillis 0
  /-- The wait after the first failed attempt. -/
  backoff : Duration := .ofMillis 500
  /-- The factor for the wait after each further failed attempt. -/
  multiplier : UInt32 := 2
  /-- How long disposing waits for the background to stop. -/
  grace : Duration := .ofMillis 5000
  deriving DecidableEq, Repr

/-- What callers see of a link. -/
inductive Status where
  | disconnected
  | connecting
  | connected
  | disposed
  deriving DecidableEq, Repr

/-- The name of a status. -/
def Status.name : Status → String
  | disconnected => "Disconnected"
  | connecting => "Connecting"
  | connected => "Connected"
  | disposed => "Disposed"

/-- What a caller asks for. -/
inductive Job where
  /-- Exactly `n` bytes. -/
  | read (n : Nat)
  /-- The body of a frame, which stands behind its length. -/
  | readFrame
  /-- To send a whole frame, its length included. -/
  | write (frame : Bytes)
  /-- To give up the link for good. -/
  | dispose
  deriving DecidableEq, Repr

/-- What a run of bytes is read for. -/
inductive Part where
  /-- It is what the caller asked for. -/
  | whole
  /-- It is the length of a frame. -/
  | length
  /-- It is the body of a frame. -/
  | body
  deriving DecidableEq, Repr

/-- A run of bytes that is being read. -/
structure Filling where
  /-- The bytes read so far. -/
  got : Bytes := []
  /-- How many bytes are still missing. -/
  missing : Nat
  deriving DecidableEq, Repr

/-- The background tasks of a link. -/
inductive Task where
  /-- The wait before the first attempt to connect. -/
  | opening
  /-- The `index`-th episode of connecting. -/
  | episode (index : Nat)
  deriving DecidableEq, Repr

/-- How a call ends. -/
inductive Result where
  /-- It succeeds; a read has bytes to give. -/
  | ok (bytes : Bytes)
  /-- It fails. -/
  | error (e : WireError)
  deriving DecidableEq, Repr

/-- Where a call stands when it is not being advanced. -/
inductive Stage where
  /-- It has not been advanced yet. -/
  | fresh
  /-- A read waits for its turn. -/
  | queued
  /-- A read has its turn and waits for a connection or, with a source, for bytes from it. -/
  | filling (part : Part) (filling : Filling) (source : Option StreamId)
  /-- A write waits for a connection. -/
  | offering
  /-- A write waits for its turn on a connection. -/
  | lining (stream : StreamId)
  /-- A write has its turn on a connection and waits until it accepts more bytes. -/
  | sending (stream : StreamId) (rest : Bytes)
  /-- Disposing waits for a task to stop, but not past an instant. -/
  | winding (task : Task) (deadline : Nat)
  /-- The call is over. -/
  | done (result : Result)
  /-- The caller has dropped the call. -/
  | dropped
  deriving DecidableEq, Repr

/-- A call. -/
structure Call where
  /-- What the caller asks for. -/
  job : Job
  /-- Whether the caller has withdrawn it. -/
  cancelled : Bool := false
  /-- Where it stands. -/
  stage : Stage := .fresh
  deriving DecidableEq, Repr

/-- Where an episode of connecting stands when it is not being advanced. -/
inductive Phase where
  /-- It has not been advanced yet. -/
  | spawned
  /-- The attempt numbered `attempt` is under way; if it fails, `wait` follows. -/
  | dialing (attempt : UInt32) (wait : Duration)
  /-- The attempt numbered `attempt` has failed and `wait` lasts until an instant. -/
  | waiting (attempt : UInt32) (wait : Duration) (deadline : Nat)
  /-- It is over. -/
  | over
  deriving DecidableEq, Repr

/-- An episode of connecting: attempts, one after the other, until one succeeds. -/
structure Episode where
  /-- The connection whose loss started the episode; none for the very first one. -/
  cause : Option StreamId
  /-- Where it stands. -/
  phase : Phase := .spawned
  deriving DecidableEq, Repr

/-- What a link keeps a record of. -/
inductive Entry where
  /-- An attempt to connect was announced at an instant. -/
  | announced (attempt : UInt32) (instant : Nat)
  /-- A call took bytes that had arrived on a connection. -/
  | took (call : CallId) (stream : StreamId) (bytes : Bytes)
  /-- A call put bytes on a connection. -/
  | put (call : CallId) (stream : StreamId) (bytes : Bytes)
  deriving DecidableEq, Repr

end Link

/-- A client's connection to a broker. -/
structure Link where
  /-- How the link connects. -/
  config : Link.Config
  /-- The host and port of the broker, for messages. -/
  endpoint : String
  /-- How many bytes a connection accepts before the far side takes any. -/
  window : Nat
  /-- The nanoseconds since the link was made. -/
  clock : Nat := 0
  /-- When the wait before the first attempt is over, if it has begun. -/
  opensAt : Option Nat := none
  /-- Whether it is over. -/
  opened : Bool := false
  /-- The connection in use. -/
  slot : Option StreamId := none
  /-- Whether calls may use the connection in the slot. -/
  gateOpen : Bool := false
  /-- How many episodes of connecting are under way. -/
  reconnecting : Nat := 0
  /-- The episodes so far, in order. -/
  episodes : List Link.Episode := []
  /-- The background task that disposing has to wait for. -/
  tracked : Option Link.Task := some .opening
  /-- How often the link was to be disposed. -/
  disposals : Nat := 0
  /-- Whether the link has been given up. -/
  disposed : Bool := false
  /-- Whose turn it is to read. -/
  readers : Link.Turns := {}
  /-- The connections so far, in order. -/
  streams : List Link.Stream := []
  /-- The calls so far, in order. -/
  calls : List Link.Call := []
  /-- What has been recorded, newest first. -/
  journal : List Link.Entry := []
  deriving DecidableEq, Repr

namespace Link

/-- What callers see of the link. -/
def status (l : Link) : Status :=
  if l.disposed then .disposed
  else if l.gateOpen ∧ l.slot.isSome then .connected
  else if 0 < l.reconnecting then .connecting
  else .disconnected

/-- The failure of calls on a link that has been given up. -/
def disposedError (l : Link) : WireError := .disposed l.endpoint

/-- The failure of a call on a broken connection. -/
def brokenError : WireError := .io "connection reset"

/-- Whether a caller has withdrawn a call. -/
def isCancelled (l : Link) (call : CallId) : Bool :=
  match l.calls[call]? with
  | some c => c.cancelled
  | none => false

/-- Whether a background task has stopped. -/
def hasStopped (l : Link) : Task → Bool
  | .opening => l.opened
  | .episode index =>
    match l.episodes[index]? with
    | some e => e.phase = .over
    | none => true

/-- The link with a call at another stage. -/
def setStage (l : Link) (call : CallId) (stage : Stage) : Link :=
  { l with calls := l.calls.modify call fun c => { c with stage } }

/-- The link with an episode in another phase. -/
def setPhase (l : Link) (index : Nat) (phase : Phase) : Link :=
  { l with episodes := l.episodes.modify index fun e => { e with phase } }

/-- The link with one of its connections changed. -/
def modifyStream (l : Link) (stream : StreamId) (f : Stream → Stream) : Link :=
  { l with streams := l.streams.modify stream f }

/-- The link with one more entry in its record. -/
def record (l : Link) (entry : Entry) : Link :=
  { l with journal := entry :: l.journal }

/-- The attempts announced so far with their instants, in order. -/
def announcements (l : Link) : List (UInt32 × Nat) :=
  l.journal.reverse.filterMap fun
    | .announced attempt instant => some (attempt, instant)
    | _ => none

end Link

end BrokerWire
