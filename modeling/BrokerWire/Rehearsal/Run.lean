import BrokerWire.Rehearsal.Basic

/-!
# Running a rehearsal

The steps that callers take, one after the other. A step that cannot finish at once lets the
background go on and then time pass, but not for more than an hour. Calls that were started and
not joined do not go on in the meantime. `Rehearsal.run` gives the value and the status after each
step, and what the peers have recorded at the end.
-/

namespace BrokerWire

namespace Rehearsal

/-- What callers do. -/
inductive Step where
  /-- Makes a call and waits for its result. -/
  | perform (job : Link.Job)
  /-- The same, with the call withdrawn before it is advanced. -/
  | withdrawn (job : Link.Job)
  /-- Begins a call under a name and advances it as far as it goes without waiting. -/
  | start (name : String) (job : Link.Job)
  /-- Waits for the result of a call. -/
  | join (name : String)
  /-- Withdraws a call. -/
  | cancel (name : String)
  /-- Drops a call. -/
  | abandon (name : String)
  /-- Waits until the link is connected. -/
  | waitConnected
  /-- Waits for some milliseconds. -/
  | sleep (millis : Nat)
  /-- Waits until a connection is over on the broker's side. -/
  | sync (index : Nat)
  /-- Lets connecting succeed or fail from now on. -/
  | listen (listening : Bool)
  /-- Lets the peer of a connection pass one gate. -/
  | release (index : Nat)
  /-- Asks for the status. -/
  | status
  /-- Asks for the numbers of all attempts announced. -/
  | attempts
  /-- Asks for the same with their times. -/
  | times
  /-- Asks for the time. -/
  | elapsed
  /-- Asks where the broker is. -/
  | endpoint
  deriving DecidableEq, Repr

/-- What a step gives. -/
inductive Value where
  /-- Nothing to tell. -/
  | nothing
  /-- The bytes of a call that has succeeded. -/
  | bytes (bytes : Bytes)
  /-- The failure of a call. -/
  | failure (error : WireError)
  /-- An hour has passed without a result. -/
  | stuck
  /-- A call that was started waits. -/
  | pending
  /-- A call that was started is over. -/
  | done (value : Value)
  /-- Yes or no. -/
  | flag (answer : Bool)
  /-- A status. -/
  | status (status : Link.Status)
  /-- The numbers of attempts. -/
  | attempts (numbers : List UInt32)
  /-- The numbers of attempts and their times in milliseconds. -/
  | times (numbers : List (UInt32 × Nat))
  /-- A time in milliseconds. -/
  | elapsed (millis : Nat)
  /-- Where the broker is. -/
  | endpoint (endpoint : Endpoint)
  deriving DecidableEq, Repr

/-- The value of a call's result. -/
def valueOf (job : Link.Job) : Link.Result → Value
  | .ok bytes => if job = .dispose then .nothing else .bytes bytes
  | .error e => .failure e

/-- The value of a call that is over. -/
def callValue? (r : Rehearsal) (call : CallId) : Option Value := do
  let c ← r.link.calls[call]?
  let result ← r.link.result? call
  return valueOf c.job result

/-- An hour in nanoseconds. -/
def hour : Nat := 3600000 * Duration.nanosPerMilli

/-- Lets the background go on and time pass until `attempt` gives a value, but not up to
`deadline`. There, the step is over before anything else that is due at the same instant. -/
def waitUpTo (attempt : Rehearsal → Rehearsal × Option Value) (deadline : Nat) :
    Nat → Rehearsal → Rehearsal × Option Value
  | 0, r => (r, none)
  | limit + 1, r =>
    match attempt r.settle with
    | (r, some value) => (r, some value)
    | (r, none) =>
      if r.stir?.isSome then waitUpTo attempt deadline limit r
      else
        match r.nextInstant? with
        | none => (r.passTo deadline, none)
        | some instant =>
          if instant < deadline then waitUpTo attempt deadline limit (r.passTo instant)
          else (r.passTo deadline, none)

/-- Tries at once, and then waits until there is a value or the deadline has come. -/
def waitUntil (r : Rehearsal) (deadline : Nat)
    (attempt : Rehearsal → Rehearsal × Option Value) : Rehearsal × Option Value :=
  match attempt r with
  | (r, some value) => (r, some value)
  | (r, none) =>
    if deadline ≤ r.link.clock then (r, none)
    else waitUpTo attempt deadline (patience * patience) r

/-- Advances a call and looks for its result. -/
def advance (call : CallId) (r : Rehearsal) : Rehearsal × Option Value :=
  let r := r.step (.poll call false)
  (r, r.callValue? call)

/-- Waits for the result of a call for an hour. -/
def awaitCall (r : Rehearsal) (call : CallId) : Rehearsal × Option Value :=
  r.waitUntil (r.link.clock + hour) (advance call)

/-- Waits for a condition for an hour. -/
def awaitThat (r : Rehearsal) (condition : Rehearsal → Bool) : Rehearsal × Value :=
  let attempt := fun r => (r, if condition r then some Value.nothing else none)
  match r.waitUntil (r.link.clock + hour) attempt with
  | (r, some value) => (r, value)
  | (r, none) => (r, .stuck)

/-- Begins a call, which is not advanced yet. -/
def begin (r : Rehearsal) (job : Link.Job) : Rehearsal × CallId :=
  (r.step (.begin job), r.link.calls.length)

/-- Waits for the result of a new call, which is dropped if there is none within an hour. -/
def conclude (r : Rehearsal) (call : CallId) : Rehearsal × Value :=
  match r.awaitCall call with
  | (r, some value) => (r, value)
  | (r, none) => (r.step (.drop call), .stuck)

/-- The call that a name stands for. -/
def callOf? (r : Rehearsal) (name : String) : Option CallId := r.names.lookup name

/-- The attempts that the owner of the link was told of. -/
def announcements (r : Rehearsal) : List (UInt32 × Nat) :=
  if r.observed then r.link.announcements else []

/-- Whether the peer of a connection has nothing more to do. -/
def isOver (r : Rehearsal) (index : Nat) : Bool :=
  match r.peers[index]? with
  | some peer => peer.stance = .gone
  | none => false

/-- Begins a call under a name. A call that had the name and waits is dropped. -/
def start (r : Rehearsal) (name : String) (job : Link.Job) : Rehearsal × Value :=
  let (r, call) := r.begin job
  let (r, value) := advance call r
  let r :=
    match r.callOf? name with
    | some earlier => r.step (.drop earlier)
    | none => r
  let r := { r with names := (name, call) :: r.names }
  match value with
  | some value => (r, .done value)
  | none => (r, .pending)

/-- What a step does, and what it gives. A name that stands for no call gives nothing. -/
def perform (r : Rehearsal) : Step → Rehearsal × Value
  | .perform job =>
    let (r, call) := r.begin job
    r.conclude call
  | .withdrawn job =>
    let (r, call) := r.begin job
    (r.step (.cancel call)).conclude call
  | .start name job => r.start name job
  | .join name =>
    match r.callOf? name with
    | none => (r, .nothing)
    | some call =>
      match r.awaitCall call with
      | (r, some value) => (r, value)
      | (r, none) => (r, .stuck)
  | .cancel name =>
    match r.callOf? name with
    | none => (r, .nothing)
    | some call => (r.step (.cancel call), .nothing)
  | .abandon name =>
    match r.callOf? name with
    | none => (r, .flag false)
    | some call => (r.step (.drop call), .flag (r.link.isPending call))
  | .waitConnected => r.awaitThat fun r => r.link.status = .connected
  | .sleep millis =>
    let deadline := r.link.clock + millis * Duration.nanosPerMilli
    ((r.waitUntil deadline fun r => (r, none)).1, .nothing)
  | .sync index => r.awaitThat fun r => r.isOver index
  | .listen listening => ({ r with listening }, .nothing)
  | .release index => ({ r with releases := index :: r.releases }, .nothing)
  | .status => (r, .status r.link.status)
  | .attempts => (r, .attempts (r.announcements.map Prod.fst))
  | .times =>
    (r, .times (r.announcements.map fun (n, t) => (n, t / Duration.nanosPerMilli)))
  | .elapsed => (r, .elapsed (r.link.clock / Duration.nanosPerMilli))
  | .endpoint => (r, .endpoint r.endpoint)

/-- The owner drops all calls and the link. -/
def dropClient (r : Rehearsal) : Rehearsal :=
  let r := (List.range r.link.calls.length).foldl (fun r call => r.step (.drop call)) r
  { r.step .release with clientGone := true }

/-- Lets the broker go on for as long as it has something to do. -/
def wait : Nat → Rehearsal → Rehearsal
  | 0, r => r
  | limit + 1, r =>
    let r := r.settle
    match r.nextInstant? with
    | some instant => wait limit (r.passTo instant)
    | none => r

/-- What happened in a rehearsal. -/
structure Outcome where
  /-- The value of each step and the status after it. -/
  steps : List (Value × Link.Status)
  /-- What the peer of each connection has recorded. -/
  recorded : List Bytes
  deriving DecidableEq, Repr

/-- Takes steps, with the steps taken before listed last one first. -/
def runFrom (r : Rehearsal) (taken : List (Value × Link.Status)) : List Step → Outcome
  | [] => ⟨taken.reverse, (wait patience r.dropClient).peers.map Peer.recorded⟩
  | step :: steps =>
    let (r, value) := r.perform step
    runFrom r ((value, r.link.status) :: taken) steps

/-- What happens when callers take the given steps. -/
def run (r : Rehearsal) (steps : List Step) : Outcome := r.runFrom [] steps

end Rehearsal

end BrokerWire
