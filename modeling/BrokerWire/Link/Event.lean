import BrokerWire.Link.Dispose
import BrokerWire.Link.Read
import BrokerWire.Link.Write

/-!
# What can happen to a link

An event is one indivisible thing: a caller begins, withdraws, advances or drops a call, a
background task is advanced, the far side acts on a connection, or time passes. `Link.step` says
what an event does, and `Link.run` what a course of events does. Every order of events is a
course, so what holds after every run holds however calls, tasks and the far side are interleaved.

To advance a call (`Link.poll`) is one event, up to where the call has to wait. Nothing happens in
the middle of it: between the moment at which a write sees that it is not withdrawn and the link not
given up and the moment at which it puts its first bytes on the connection, the link is not given up
and no other call goes on.
-/

namespace BrokerWire

namespace Link

/-- Something that happens to a link. -/
inductive Event where
  /-- A caller asks for something; the call is not advanced yet. -/
  | begin (job : Job)
  /-- A caller withdraws a call. -/
  | cancel (call : CallId)
  /-- A caller drops a call. -/
  | drop (call : CallId)
  /-- A call goes on as far as it can. `ioFirst` settles which of two things that are ready at the
  same moment is noticed. -/
  | poll (call : CallId) (ioFirst : Bool)
  /-- The wait before the first attempt goes on if it can. -/
  | pollOpening
  /-- An episode goes on if it can. -/
  | pollEpisode (index : Nat) (dial : Dial) (ioFirst : Bool)
  /-- Bytes arrive from the far side. -/
  | arrive (stream : StreamId) (bytes : Bytes)
  /-- The far side ends its direction of a connection. On a connection that it has aborted: the
  failure has been told, and reading finds the end from now on. -/
  | finish (stream : StreamId)
  /-- The far side aborts a connection. -/
  | abort (stream : StreamId)
  /-- What has arrived on an aborted connection and is unread is lost. -/
  | flush (stream : StreamId)
  /-- The far side takes bytes it has been sent. -/
  | drain (stream : StreamId) (n : Nat)
  /-- Time passes. -/
  | elapse (nanos : Nat)
  /-- The owner drops the link. -/
  | release
  deriving DecidableEq, Repr

/-- Advances a call as far as it goes without waiting, in one go. -/
def poll (l : Link) (id : CallId) (ioFirst : Bool) : Link :=
  match l.calls[id]? with
  | none => l
  | some call =>
    match call.stage, call.job with
    | .fresh, .read n | .queued, .read n => l.enterRead id .whole n
    | .fresh, .readFrame | .queued, .readFrame => l.enterRead id .length lengthSize
    | .filling part filling source, _ => l.readOn id part filling source
    | .fresh, .write frame | .offering, .write frame => l.enterWrite id frame ioFirst
    | .lining stream, .write frame => l.lineUp id stream frame ioFirst
    | .sending stream rest, _ => l.send id stream rest ioFirst
    | .fresh, .dispose => l.enterDispose id
    | .winding task deadline, _ => l.windDown id task deadline
    | _, _ => l

/-- Drops a call, which gives up its turns. A call that is over stays over. -/
def drop (l : Link) (id : CallId) : Link :=
  match l.calls[id]? with
  | none => l
  | some call =>
    match call.stage with
    | .done _ | .dropped => l
    | _ =>
      ({ l with
        readers := l.readers.leave id
        streams := l.streams.map fun s => { s with writers := s.writers.leave id } } :
        Link).setStage id .dropped

/-- What an event does to a link. -/
def step (l : Link) : Event → Link
  | .begin job => { l with calls := l.calls ++ [{ job }] }
  | .cancel call => { l with calls := l.calls.modify call fun c => { c with cancelled := true } }
  | .drop call => l.drop call
  | .poll call ioFirst => l.poll call ioFirst
  | .pollOpening => l.pollOpening
  | .pollEpisode index dial ioFirst => l.pollEpisode index dial ioFirst
  | .arrive stream bytes => l.modifyStream stream (·.arrive bytes)
  | .finish stream => l.modifyStream stream Stream.finish
  | .abort stream => l.modifyStream stream Stream.abort
  | .flush stream => l.modifyStream stream Stream.flush
  | .drain stream n => l.modifyStream stream (·.drain n)
  | .elapse nanos => { l with clock := l.clock + nanos }
  | .release => { l with disposed := true }

/-- What a course of events does to a link. -/
def run (l : Link) (events : List Event) : Link := events.foldl step l

theorem run_append (l : Link) (early late : List Event) :
    l.run (early ++ late) = (l.run early).run late :=
  List.foldl_append ..

/-- The result of a call that is over. -/
def result? (l : Link) (id : CallId) : Option Result :=
  match l.calls[id]? with
  | some ⟨_, _, .done result⟩ => some result
  | _ => none

/-- Whether a call is neither over nor dropped. -/
def isPending (l : Link) (id : CallId) : Bool :=
  match l.calls[id]? with
  | some ⟨_, _, .done _⟩ | some ⟨_, _, .dropped⟩ | none => false
  | _ => true

/-- Whether a call at this stage keeps a connection open. -/
def Stage.holds (stage : Stage) (stream : StreamId) : Bool :=
  match stage with
  | .filling _ _ source => source = some stream
  | .lining s => s = stream
  | .sending s _ => s = stream
  | _ => false

/-- Whether the client's end of a connection is still open: it is in use, or a call waits on
it. -/
def isOpen (l : Link) (stream : StreamId) : Bool :=
  l.slot = some stream || l.calls.any fun c => c.stage.holds stream

end Link

end BrokerWire
