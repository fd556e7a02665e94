import BrokerWire.Frame
import BrokerWire.Link.Reconnect

/-!
# Reading

A read waits for its turn, and then, as often as bytes are missing, for a connection in use and
for bytes from it. Bytes taken by a read that then fails or is withdrawn are gone. A frame whose
length is impossible ends the use of the connection that is then in use, because nothing behind it
can be told apart. A read that waits for bytes stays with its connection until it gets some or finds
it lost, even if another has taken its place by then.
-/

namespace BrokerWire

namespace Link

/-- The bytes of a frame's length. -/
def lengthSize : Nat := 4

/-- How far a read gets before it has to wait. -/
inductive Filled where
  /-- All bytes are there. -/
  | complete (bytes : Bytes)
  /-- It waits for a connection or, with a source, for bytes from it. -/
  | waiting (filling : Filling) (source : Option StreamId)
  /-- It fails. -/
  | failed (error : WireError)
  deriving DecidableEq, Repr

/-- Takes what has arrived on a connection, and has the loss of the connection noted. -/
def takeFrom (l : Link) (call : CallId) (stream : StreamId) (n : Nat) : Intake × Link :=
  match l.streams[stream]? with
  | none => (.nothing, l)
  | some s =>
    match s.take n with
    | (.bytes chunk, s) =>
      (.bytes chunk, (l.modifyStream stream fun _ => s).record (.took call stream chunk))
    | (.nothing, _) => (.nothing, l)
    | (.ended, _) => (.ended, l.lose stream)
    | (.aborted, _) => (.aborted, l.lose stream)

/-- Reads on until the bytes are complete or the read has to wait. Each round either finds the
connection to read from or takes at least one byte, so `2 * missing + 2` rounds are enough. -/
def gather : Nat → Link → CallId → Filling → Option StreamId → Link × Filled
  | 0, l, _, filling, source => (l, .waiting filling source)
  | rounds + 1, l, call, filling, source =>
    if filling.missing = 0 then (l, .complete filling.got)
    else if l.disposed then (l, .failed l.disposedError)
    else if l.isCancelled call then (l, .failed .cancelled)
    else
      match source with
      | none =>
        if l.gateOpen then
          match l.slot with
          | some stream => gather rounds l call filling (some stream)
          | none => (l, .failed (.serverUnreachable l.endpoint))
        else (l, .waiting filling none)
      | some stream =>
        match l.takeFrom call stream filling.missing with
        | (.bytes chunk, l) =>
          gather rounds l call ⟨filling.got ++ chunk, filling.missing - chunk.length⟩ none
        | (.nothing, l) => (l, .waiting filling source)
        | (.ended, l) => (l, .failed (.serverDisconnected l.endpoint))
        | (.aborted, l) => (l, .failed brokenError)

/-- Reads on with as many rounds as can be needed. -/
def fill (l : Link) (call : CallId) (filling : Filling) (source : Option StreamId) :
    Link × Filled :=
  gather (2 * filling.missing + 2) l call filling source

/-- Ends a read, which gives up its turn. -/
def endRead (l : Link) (call : CallId) (result : Result) : Link :=
  ({ l with readers := l.readers.leave call } : Link).setStage call (.done result)

/-- Reads on for the last run of bytes of a call. -/
def readLast (l : Link) (call : CallId) (part : Part) (filling : Filling)
    (source : Option StreamId) : Link :=
  match l.fill call filling source with
  | (l, .complete bytes) => l.endRead call (.ok bytes)
  | (l, .waiting filling source) => l.setStage call (.filling part filling source)
  | (l, .failed e) => l.endRead call (.error e)

/-- Goes on behind the length of a frame, with its body if the length is possible. -/
def readBody (l : Link) (call : CallId) (length : Int32) : Link :=
  if isFrameLength length then
    l.readLast call .body ⟨[], length.toNatClampNeg⟩ none
  else
    let l :=
      match l.slot with
      | some stream => l.lose stream
      | none => l
    l.endRead call (.error (.protocol (.frameLength length l.endpoint)))

/-- Reads on in a call that has its turn. -/
def readOn (l : Link) (call : CallId) (part : Part) (filling : Filling)
    (source : Option StreamId) : Link :=
  match part with
  | .length =>
    match l.fill call filling source with
    | (l, .complete bytes) => l.readBody call (BigEndian.toInt32 bytes)
    | (l, .waiting filling source) => l.setStage call (.filling part filling source)
    | (l, .failed e) => l.endRead call (.error e)
  | part => l.readLast call part filling source

/-- Advances a read up to its turn, and from there on if it has come. -/
def enterRead (l : Link) (call : CallId) (part : Part) (size : Nat) : Link :=
  if l.disposed then l.endRead call (.error l.disposedError)
  else if l.isCancelled call then l.endRead call (.error .cancelled)
  else
    let l := { l with readers := l.readers.join call }
    if l.readers.holder = some call then l.readOn call part ⟨[], size⟩ none
    else l.setStage call .queued

end Link

end BrokerWire
