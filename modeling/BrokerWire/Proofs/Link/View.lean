import BrokerWire.Link.Event
import Mathlib.Logic.Function.Basic
import Mathlib.Logic.Relation
import Mathlib.Tactic.SplitIfs

/-!
# A link as its readers see it

What matters for reading is a part of a link's state: which connection is in use (`Link.Conn`),
whose turn it is to read, where the calls stand, what has arrived and what has been taken. A
`Link.View` is that part, together with two things that a link does not keep: what has been
delivered on each connection, and what reads from it have returned.

`Link.View.Move` lists the moves by which a view changes once a call has begun (`Link.View.begun`).
One event is none, one or a few of them, and an invariant of reading is checked once for each kind
of move.
-/

namespace BrokerWire

namespace Link

/-! ### What is taken -/

/-- Bytes that a call took from a connection at one time. -/
structure Take where
  /-- The call. -/
  call : CallId
  /-- The connection. -/
  stream : StreamId
  /-- What it took. -/
  bytes : Bytes

/-- What an entry of the record says about taking. -/
def Entry.take? : Entry → Option Take
  | .took call stream bytes => some ⟨call, stream, bytes⟩
  | _ => none

/-- The bytes of some takes in the order in which they were taken; the newest take comes first. -/
def bytesOf (which : Take → Bool) (takes : List Take) : Bytes :=
  (takes.filter which).reverse.flatMap Take.bytes

theorem bytesOf_cons (which : Take → Bool) (t : Take) (takes : List Take) :
    bytesOf which (t :: takes) = bytesOf which takes ++ if which t then t.bytes else [] := by
  by_cases h : which t <;> simp [bytesOf, h]

theorem bytesOf_append (which : Take → Bool) (new takes : List Take) :
    bytesOf which (new ++ takes) = bytesOf which takes ++ bytesOf which new := by
  simp [bytesOf]

theorem bytesOf_eq_nil {which : Take → Bool} {takes : List Take}
    (h : ∀ t ∈ takes, which t = false) : bytesOf which takes = [] := by
  rw [bytesOf, List.filter_eq_nil_iff.mpr (by simpa using h)]
  rfl

/-- Takes of one call. -/
def isBy (call : CallId) (t : Take) : Bool := t.call = call

/-- Takes of one call from one connection. -/
def isOf (call : CallId) (stream : StreamId) (t : Take) : Bool :=
  t.call = call ∧ t.stream = stream

theorem exists_take_of_takenBy {call : CallId} {stream : StreamId} {takes : List Take}
    (h : bytesOf (isOf call stream) takes ≠ []) :
    ∃ t ∈ takes, t.call = call ∧ t.stream = stream := by
  by_contra hnone
  exact h (bytesOf_eq_nil fun t ht => decide_eq_false fun hof => hnone ⟨t, ht, hof⟩)

/-- A call that has taken from one connection only has in its hands what it has taken there. -/
theorem bytesOf_isBy {call : CallId} {stream : StreamId} {takes : List Take}
    (h : ∀ other, other ≠ stream → bytesOf (isOf call other) takes = []) :
    bytesOf (isBy call) takes = bytesOf (isOf call stream) takes := by
  induction takes with
  | nil => rfl
  | cons t takes ih =>
    simp only [bytesOf_cons, List.append_eq_nil_iff] at h ⊢
    rw [ih fun other hne => (h other hne).1]
    refine congrArg _ ?_
    by_cases hcall : t.call = call
    · by_cases hstream : t.stream = stream
      · simp [isBy, isOf, hcall, hstream]
      · have hnone := (h t.stream hstream).2
        simpa [isBy, isOf, hcall, hstream] using hnone
    · simp [isBy, isOf, hcall]

/-- Takes from one connection. -/
def isFrom (stream : StreamId) (t : Take) : Bool := t.stream = stream

/-- All that has been taken, newest first. -/
def takes (l : Link) : List Take := l.journal.filterMap Entry.take?

/-- What a call has in its hands: all that it has taken, in the order in which it was taken. -/
def hand (l : Link) (call : CallId) : Bytes := bytesOf (isBy call) l.takes

/-- What a call has taken from a connection. -/
def takenBy (l : Link) (call : CallId) (stream : StreamId) : Bytes :=
  bytesOf (isOf call stream) l.takes

/-- What has been taken from a connection. -/
def takenFrom (l : Link) (stream : StreamId) : Bytes := bytesOf (isFrom stream) l.takes

/-! ### What is delivered and returned -/

/-- The bytes by which an event adds to what has arrived on a connection. -/
def deliveredBy (l : Link) (event : Event) (stream : StreamId) : Bytes :=
  match event with
  | .arrive target bytes =>
    match l.streams[stream]? with
    | some s => if target = stream ∧ ¬s.ended ∧ ¬s.aborted then bytes else []
    | none => []
  | _ => []

/-- The bytes that arrive on a connection in a course of events. -/
def delivered (l : Link) (stream : StreamId) : List Event → Bytes
  | [] => []
  | event :: events => l.deliveredBy event stream ++ (l.step event).delivered stream events

/-- The bytes with which an event lets a call succeed that has read from a connection. -/
def returnedBy (l : Link) (event : Event) (stream : StreamId) : List Bytes :=
  match event with
  | .poll call _ =>
    match l.result? call, (l.step event).result? call with
    | none, some (.ok bytes) =>
      if (l.step event).takenBy call stream = [] then [] else [bytes]
    | _, _ => []
  | _ => []

/-- The bytes with which reads from a connection succeed in a course of events, in the order in
which the reads end. -/
def returned (l : Link) (stream : StreamId) : List Event → List Bytes
  | [] => []
  | event :: events => l.returnedBy event stream ++ (l.step event).returned stream events

/-! ### Views -/

/-- Which connection is in use, and how a link comes by the next one. -/
structure Conn where
  /-- The connection in the slot. -/
  slot : Option StreamId
  /-- Whether calls may use it. -/
  gateOpen : Bool
  /-- How many episodes of connecting are under way. -/
  reconnecting : Nat
  /-- The episodes so far. -/
  episodes : List Episode
  /-- Whether the wait before the first attempt is over. -/
  opened : Bool
  /-- Whether the link has been given up. -/
  disposed : Bool
  /-- How many connections there have been. -/
  made : Nat

namespace Conn

/-- Whether calls can use a connection. -/
def InUse (c : Conn) (stream : StreamId) : Prop :=
  c.disposed = false ∧ c.gateOpen = true ∧ c.slot = some stream

/-- An episode goes on to another phase. -/
def setPhase (c : Conn) (index : Nat) (phase : Phase) : Conn :=
  { c with episodes := c.episodes.modify index fun e => { e with phase } }

/-- A further episode starts. -/
def launch (c : Conn) (cause : Option StreamId) : Conn :=
  { c with
    reconnecting := c.reconnecting + 1
    gateOpen := false
    episodes := c.episodes ++ [⟨cause, .spawned⟩] }

/-- The loss of a connection is noticed. -/
def lose (c : Conn) (stream : StreamId) : Conn :=
  if c.disposed = false ∧ c.slot = some stream ∧ c.reconnecting = 0 then c.launch (some stream)
  else c

/-- The loss of a connection is noticed, if there is a connection. -/
def forsake (c : Conn) (stream : Option StreamId) : Conn := stream.elim c c.lose

/-- An episode ends. -/
def endEpisode (c : Conn) (index : Nat) : Conn :=
  { c.setPhase index .over with
    reconnecting := c.reconnecting - 1
    gateOpen := true }

end Conn

/-- The direction of a connection towards the client. -/
structure Inflow where
  /-- What has arrived and is unread. -/
  incoming : Bytes := []
  /-- Whether the far side has ended it. -/
  ended : Bool := false
  /-- Whether the far side has aborted the connection. -/
  aborted : Bool := false

/-- What a stream holds for readers. -/
def Stream.inflow (s : Stream) : Inflow := ⟨s.incoming, s.ended, s.aborted⟩

/-- A link as its readers see it. -/
structure View where
  /-- Which connection is in use. -/
  conn : Conn
  /-- Whose turn it is to read. -/
  readers : Turns
  /-- The calls so far. -/
  calls : List Call
  /-- What each connection holds. -/
  inflow : StreamId → Inflow
  /-- What has been taken, newest first. -/
  takes : List Take
  /-- What has arrived on each connection since it was made. -/
  delivered : StreamId → Bytes
  /-- What reads from each connection have returned. -/
  returned : StreamId → List Bytes

/-- Which connection of a link is in use. -/
def conn (l : Link) : Conn where
  slot := l.slot
  gateOpen := l.gateOpen
  reconnecting := l.reconnecting
  episodes := l.episodes
  opened := l.opened
  disposed := l.disposed
  made := l.streams.length

/-- What a connection of a link holds for readers. -/
def inflow (l : Link) (stream : StreamId) : Inflow := (l.streams[stream]?.getD {}).inflow

/-- The view of a link on which so much has been delivered and returned. -/
def view (l : Link) (delivered : StreamId → Bytes) (returned : StreamId → List Bytes) : View where
  conn := l.conn
  readers := l.readers
  calls := l.calls
  inflow := l.inflow
  takes := l.takes
  delivered
  returned

/-- Whether a call at this stage can still go on. -/
def Stage.isOpen : Stage → Bool
  | .done _ | .dropped => false
  | _ => true

/-- Whether a read at this stage has its turn. -/
def Stage.isFilling : Stage → Bool
  | .filling .. => true
  | _ => false

/-- What a job begins to read: a run of so many bytes for some purpose. -/
def Job.start? : Job → Option (Part × Nat)
  | .read n => some (.whole, n)
  | .readFrame => some (.length, lengthSize)
  | _ => none

namespace View

/-- What a call has in its hands. -/
def hand (v : View) (call : CallId) : Bytes := bytesOf (isBy call) v.takes

/-- What a call has taken from a connection. -/
def takenBy (v : View) (call : CallId) (stream : StreamId) : Bytes :=
  bytesOf (isOf call stream) v.takes

/-- What has been taken from a connection. -/
def takenFrom (v : View) (stream : StreamId) : Bytes := bytesOf (isFrom stream) v.takes

/-- The view with a call at another stage. -/
def setStage (v : View) (call : CallId) (stage : Stage) : View :=
  { v with calls := v.calls.modify call fun c => { c with stage } }

theorem getElem?_setStage_self {v : View} {call : CallId} {c : Call}
    (hcall : v.calls[call]? = some c) {stage : Stage} :
    (v.setStage call stage).calls[call]? = some { c with stage } := by
  simp [setStage, hcall]

theorem getElem?_setStage_of_ne {v : View} {call other : CallId} (hne : other ≠ call)
    {stage : Stage} : (v.setStage call stage).calls[other]? = v.calls[other]? :=
  List.getElem?_modify_ne _ _ (Ne.symm hne)

/-- The view without a call among those that read or wait for their turn. -/
def leave (v : View) (call : CallId) : View := { v with readers := v.readers.leave call }

/-- The view with what a connection holds changed. -/
def setInflow (v : View) (stream : StreamId) (inflow : Inflow) : View :=
  { v with inflow := Function.update v.inflow stream inflow }

/-- The view after a call took the front of what a connection holds. -/
def take (v : View) (call : CallId) (stream : StreamId) (chunk rest : Bytes) : View :=
  { v.setInflow stream { v.inflow stream with incoming := rest } with
    takes := ⟨call, stream, chunk⟩ :: v.takes }

/-- The view after a read has returned bytes. -/
def deliver (v : View) (call : CallId) (bytes : Bytes) : View :=
  { v with
    returned := fun stream =>
      v.returned stream ++ if v.takenBy call stream = [] then [] else [bytes] }

/-- The view with the call that an event begins, if it begins one. -/
def begun (v : View) : Event → View
  | .begin job => { v with calls := v.calls ++ [{ job }] }
  | _ => v

/-- The moves by which a view changes. -/
inductive Move : View → View → Prop where
  /-- A call is withdrawn. -/
  | withdraw (v : View) (call : CallId) :
    Move v { v with calls := v.calls.modify call fun c => { c with cancelled := true } }
  /-- A call that is no read goes on or ends. -/
  | shift {v : View} {call : CallId} {c : Call} {stage : Stage} (hcall : v.calls[call]? = some c)
    (hjob : c.job.start? = none) (hopen : c.stage.isOpen) (hfilling : stage.isFilling = false)
    (hqueued : stage ≠ .queued)
    (hwinding : ∀ task deadline, stage = .winding task deadline → v.conn.disposed)
    (hprotocol : ∀ fault, stage ≠ .done (.error (.protocol fault))) :
    Move v (v.setStage call stage)
  /-- A read waits for its turn. -/
  | queue {v : View} {call : CallId} {c : Call} (hcall : v.calls[call]? = some c)
    (hjob : c.job.start?.isSome) (hstage : c.stage = .fresh ∨ c.stage = .queued)
    (hturn : (v.readers.join call).holder ≠ some call) :
    Move v ({ v with readers := v.readers.join call }.setStage call .queued)
  /-- A read ends before it has its turn. -/
  | quit {v : View} {call : CallId} {c : Call} {e : WireError} (hcall : v.calls[call]? = some c)
    (hjob : c.job.start?.isSome) (hstage : c.stage = .fresh ∨ c.stage = .queued)
    (herror : ∀ fault, e ≠ .protocol fault) :
    Move v ((v.leave call).setStage call (.done (.error e)))
  /-- A read has its turn. -/
  | enter {v : View} {call : CallId} {c : Call} {part : Part} {size : Nat}
    (hcall : v.calls[call]? = some c) (hjob : c.job.start? = some (part, size))
    (hstage : c.stage = .fresh ∨ c.stage = .queued)
    (hturn : (v.readers.join call).holder = some call) :
    Move v ({ v with readers := v.readers.join call }.setStage call (.filling part ⟨[], size⟩ none))
  /-- A read finds the connection to read from. -/
  | find {v : View} {call : CallId} {c : Call} {part : Part} {f : Filling} {stream : StreamId}
    (hcall : v.calls[call]? = some c) (hstage : c.stage = .filling part f none)
    (huse : v.conn.InUse stream) : Move v (v.setStage call (.filling part f (some stream)))
  /-- A read takes bytes from the connection that it has found, in use or not, and will look for the
  next bytes anew. -/
  | take {v : View} {call : CallId} {c : Call} {part : Part} {f : Filling} {stream : StreamId}
    {chunk rest : Bytes} (hcall : v.calls[call]? = some c)
    (hstage : c.stage = .filling part f (some stream))
    (hincoming : (v.inflow stream).incoming = chunk ++ rest) (hchunk : chunk ≠ [])
    (hmissing : chunk.length ≤ f.missing) :
    Move v ((v.take call stream chunk rest).setStage call
      (.filling part ⟨f.got ++ chunk, f.missing - chunk.length⟩ none))
  /-- A read has the length of a frame and goes on with the body. -/
  | header {v : View} {call : CallId} {c : Call} {got : Bytes} (hcall : v.calls[call]? = some c)
    (hstage : c.stage = .filling .length ⟨got, 0⟩ none)
    (hlength : isFrameLength (BigEndian.toInt32 got)) :
    Move v (v.setStage call (.filling .body ⟨[], (BigEndian.toInt32 got).toNatClampNeg⟩ none))
  /-- A read has all its bytes. -/
  | finish {v : View} {call : CallId} {c : Call} {part : Part} {got : Bytes}
    {source : Option StreamId} (hcall : v.calls[call]? = some c)
    (hstage : c.stage = .filling part ⟨got, 0⟩ source) (hpart : part ≠ .length) :
    Move v (((v.deliver call got).leave call).setStage call (.done (.ok got)))
  /-- A read has the length of a frame, and there is no such frame. -/
  | reject {v : View} {call : CallId} {c : Call} {got : Bytes} {fault : ProtocolFault}
    (hcall : v.calls[call]? = some c) (hstage : c.stage = .filling .length ⟨got, 0⟩ none)
    (hlength : isFrameLength (BigEndian.toInt32 got) = false) :
    Move v (({ v with conn := v.conn.forsake v.conn.slot }.leave call).setStage call
      (.done (.error (.protocol fault))))
  /-- A read that has its turn ends because it is withdrawn or the link is given up. -/
  | refuse {v : View} {call : CallId} {c : Call} {part : Part} {f : Filling}
    {source : Option StreamId} {e : WireError} (hcall : v.calls[call]? = some c)
    (hstage : c.stage = .filling part f source) (hmissing : 0 < f.missing)
    (herror : e = .cancelled ∨ v.conn.disposed ∧ ∀ fault, e ≠ .protocol fault) :
    Move v ((v.leave call).setStage call (.done (.error e)))
  /-- A read that has its turn ends with the loss of its connection. -/
  | lost {v : View} {call : CallId} {c : Call} {part : Part} {f : Filling} {stream : StreamId}
    {e : WireError} (hcall : v.calls[call]? = some c)
    (hstage : c.stage = .filling part f (some stream))
    (herror : e ≠ .cancelled ∧ ∀ fault, e ≠ .protocol fault) :
    Move v (({ v with conn := v.conn.lose stream }.leave call).setStage call (.done (.error e)))
  /-- A call is dropped. -/
  | drop {v : View} {call : CallId} {c : Call} (hcall : v.calls[call]? = some c)
    (hopen : c.stage.isOpen) (hmissing : ∀ part f source, c.stage = .filling part f source →
      0 < f.missing) :
    Move v ((v.leave call).setStage call .dropped)
  /-- A writer notices the loss of a connection. -/
  | notice {v : View} {stream : StreamId} (haborted : (v.inflow stream).aborted) :
    Move v { v with conn := v.conn.lose stream }
  /-- The wait before the first attempt ends with the link. -/
  | openingDisposed {v : View} (hopened : v.conn.opened = false) (hdisposed : v.conn.disposed) :
    Move v { v with conn := { v.conn with opened := true } }
  /-- The wait before the first attempt is over. -/
  | opening {v : View} (hopened : v.conn.opened = false) (hdisposed : v.conn.disposed = false) :
    Move v { v with conn := { v.conn with opened := true }.launch none }
  /-- An episode goes on. -/
  | dial {v : View} {index : Nat} {episode : Episode} {phase : Phase}
    (hepisode : v.conn.episodes[index]? = some episode) (hrunning : episode.phase ≠ .over)
    (hphase : phase ≠ .over) :
    Move v { v with conn := { v.conn with slot := none }.setPhase index phase }
  /-- An episode ends because the link is given up. -/
  | retire {v : View} {index : Nat} {episode : Episode}
    (hepisode : v.conn.episodes[index]? = some episode) (hrunning : episode.phase ≠ .over)
    (hdisposed : v.conn.disposed) :
    Move v { v with conn := { v.conn with slot := none }.endEpisode index }
  /-- An episode ends with a connection. -/
  | establish {v : View} {index : Nat} {episode : Episode}
    (hepisode : v.conn.episodes[index]? = some episode) (hrunning : episode.phase ≠ .over) :
    Move v { v with
      conn := { v.conn with slot := some v.conn.made, made := v.conn.made + 1 }.endEpisode index }
  /-- The link is given up. -/
  | dispose (v : View) : Move v { v with conn := { v.conn with disposed := true } }
  /-- The connection in use is let go. -/
  | clear {v : View} (hdisposed : v.conn.disposed) :
    Move v { v with conn := { v.conn with slot := none } }
  /-- Bytes arrive. -/
  | arrive {v : View} {stream : StreamId} (bytes : Bytes) (hmade : stream < v.conn.made)
    (hended : (v.inflow stream).ended = false) (haborted : (v.inflow stream).aborted = false) :
    Move v { v.setInflow stream
        { v.inflow stream with incoming := (v.inflow stream).incoming ++ bytes } with
      delivered := Function.update v.delivered stream (v.delivered stream ++ bytes) }
  /-- The far side ends its direction. -/
  | hangUp (v : View) (stream : StreamId) :
    Move v (v.setInflow stream { v.inflow stream with ended := true })
  /-- The far side aborts a connection. -/
  | abort (v : View) (stream : StreamId) :
    Move v (v.setInflow stream { v.inflow stream with aborted := true })
  /-- What is unread on an aborted connection is lost. -/
  | flush {v : View} {stream : StreamId} (haborted : (v.inflow stream).aborted) :
    Move v (v.setInflow stream { v.inflow stream with incoming := [] })

/-- Any number of moves. -/
abbrev Moves : View → View → Prop := Relation.ReflTransGen Move

end View

end Link

end BrokerWire
