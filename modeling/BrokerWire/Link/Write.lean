import BrokerWire.Link.Reconnect

/-!
# Writing

A write waits for a connection in use, then for its turn on that connection, and then sends its
frame there. It can be withdrawn until it starts to send and not after that, so no frame is broken
off by its caller. That it may go on, that it has its turn and the first bytes it sends are a matter
of one event: the link cannot be given up in between, nor can another write leave in between because
of that.
-/

namespace BrokerWire

namespace Link

/-- Ends a write, which gives up its turn on a connection. -/
def endWrite (l : Link) (call : CallId) (stream : StreamId) (result : Result) : Link :=
  (l.modifyStream stream fun s => { s with writers := s.writers.leave call }).setStage call
    (.done result)

/-- Puts as many bytes on a connection as it accepts. -/
def putOn (l : Link) (call : CallId) (stream : StreamId) (bytes : Bytes) : Outlet × Link :=
  match l.streams[stream]? with
  | none => (.aborted, l)
  | some s =>
    match s.put l.window bytes with
    | (outlet, [], _) => (outlet, l)
    | (outlet, accepted, s) =>
      (outlet, (l.modifyStream stream fun _ => s).record (.put call stream accepted))

/-- Sends on. When the link is disposed, `ioFirst` tells whether bytes are still put on the
connection before that is noticed. -/
def send (l : Link) (call : CallId) (stream : StreamId) (rest : Bytes) (ioFirst : Bool) : Link :=
  if l.disposed ∧ ¬ioFirst then l.endWrite call stream (.error l.disposedError)
  else
    match l.putOn call stream rest with
    | (.complete, l) => l.endWrite call stream (.ok [])
    | (.partly rest, l) =>
      if l.disposed then l.endWrite call stream (.error l.disposedError)
      else l.setStage call (.sending stream rest)
    | (.aborted, l) =>
      let e := if l.disposed then l.disposedError else brokenError
      (l.endWrite call stream (.error e)).lose stream

/-- Advances a write up to its turn on a connection, and from there on if it has come. -/
def lineUp (l : Link) (call : CallId) (stream : StreamId) (frame : Bytes) (ioFirst : Bool) :
    Link :=
  if l.disposed then l.endWrite call stream (.error l.disposedError)
  else if l.isCancelled call then l.endWrite call stream (.error .cancelled)
  else
    let l := l.modifyStream stream fun s => { s with writers := s.writers.join call }
    match l.streams[stream]? with
    | none => l
    | some s =>
      if s.writers.holder = some call then l.send call stream frame ioFirst
      else l.setStage call (.lining stream)

/-- Advances a write up to a connection in use, and from there on if there is one. -/
def enterWrite (l : Link) (call : CallId) (frame : Bytes) (ioFirst : Bool) : Link :=
  if l.disposed then l.setStage call (.done (.error l.disposedError))
  else if l.isCancelled call then l.setStage call (.done (.error .cancelled))
  else if l.gateOpen then
    match l.slot with
    | some stream => l.lineUp call stream frame ioFirst
    | none => l.setStage call (.done (.error (.serverUnreachable l.endpoint)))
  else l.setStage call .offering

end Link

end BrokerWire
