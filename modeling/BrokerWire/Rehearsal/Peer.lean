import BrokerWire.Checksum
import BrokerWire.Duration
import BrokerWire.Link.Event

/-!
# Scripted brokers

A peer is the broker's end of one connection. It follows a script of actions, one after the other,
and when the script is over it takes and forgets whatever it is sent until the client closes the
connection. Time and releases come from outside.
-/

namespace BrokerWire

namespace Rehearsal

/-- What a peer does. -/
inductive Action where
  /-- Sends bytes. -/
  | send (bytes : Bytes)
  /-- Takes exactly `n` bytes and records them. -/
  | collect (n : Nat)
  /-- Takes exactly `n` bytes and records their checksum. -/
  | digest (n : Nat)
  /-- Does nothing for some milliseconds. -/
  | pause (millis : Nat)
  /-- Waits for a release. -/
  | gate
  /-- At the start of a script: lets the client's attempt to connect wait for a release. -/
  | hang
  /-- Ends its direction of the connection and forgets the rest of the script. -/
  | close
  /-- Aborts the connection. -/
  | reset
  deriving DecidableEq, Repr

/-- Where a peer stands. -/
inductive Stance where
  /-- The client's attempt to connect waits for a release. -/
  | hanging
  /-- The next action of the script is due. -/
  | acting
  /-- `missing` more bytes are to be taken; those taken are recorded, or their checksum is. -/
  | collecting (got : Bytes) (missing : Nat) (digest : Bool)
  /-- A pause lasts until an instant. -/
  | pausing (deadline : Nat)
  /-- The script is over. -/
  | draining
  /-- The connection is over. -/
  | gone
  deriving DecidableEq, Repr

/-- The broker's end of a connection. -/
structure Peer where
  /-- The actions still to come. -/
  script : List Action
  /-- Where the peer stands. -/
  stance : Stance := .acting
  /-- What it has recorded. -/
  recorded : Bytes := []
  deriving DecidableEq, Repr

/-- The peer of a newly accepted connection. -/
def Peer.accept : List Action → Peer
  | .hang :: script => { script, stance := .hanging }
  | script => { script }

/-- What a peer is shown of its surroundings. -/
structure Outlook where
  /-- The instant, in nanoseconds. -/
  clock : Nat
  /-- Whether it may pass a gate. -/
  released : Bool
  /-- The bytes it has been sent and has not taken. -/
  waiting : Bytes
  /-- Whether the client's end is still open. -/
  isOpen : Bool

/-- What a peer does to its surroundings. -/
inductive Effect where
  /-- Nothing. -/
  | none
  /-- It uses up a release. -/
  | pass
  /-- It sends bytes. -/
  | arrive (bytes : Bytes)
  /-- It takes bytes. -/
  | drain (n : Nat)
  /-- It ends its direction. -/
  | finish
  /-- It aborts the connection. -/
  | abort
  deriving DecidableEq, Repr

namespace Peer

/-- Begins the next action of the script, if it can begin now. -/
def act (p : Peer) (o : Outlook) : Option (Peer × Effect) :=
  match p.script with
  | [] => some ({ p with stance := .draining }, .none)
  | .send bytes :: script => some ({ p with script }, .arrive bytes)
  | .collect n :: script => some ({ p with script, stance := .collecting [] n false }, .none)
  | .digest n :: script => some ({ p with script, stance := .collecting [] n true }, .none)
  | .pause millis :: script =>
    let deadline := o.clock + millis * Duration.nanosPerMilli
    some ({ p with script, stance := .pausing deadline }, .none)
  | .gate :: script | .hang :: script =>
    if o.released then some ({ p with script }, .pass) else none
  | .close :: _ => some ({ p with script := [], stance := .draining }, .finish)
  | .reset :: script => some ({ p with script, stance := .gone }, .abort)

/-- Does the next thing that a peer can do now, if there is one. -/
def turn (p : Peer) (o : Outlook) : Option (Peer × Effect) :=
  match p.stance with
  | .hanging => if o.released then some ({ p with stance := .gone }, .pass) else none
  | .acting => p.act o
  | .collecting got missing digest =>
    if missing = 0 then
      let entry := if digest then Checksum.stored (Checksum.crc32 got) else got
      some ({ p with stance := .acting, recorded := p.recorded ++ entry }, .none)
    else
      let chunk := o.waiting.take missing
      if chunk ≠ [] then
        let stance := .collecting (got ++ chunk) (missing - chunk.length) digest
        some ({ p with stance }, .drain chunk.length)
      else if o.isOpen then none
      else some ({ p with stance := .gone }, .none)
  | .pausing deadline => if deadline ≤ o.clock then some ({ p with stance := .acting }, .none)
    else none
  | .draining =>
    if o.waiting ≠ [] then some (p, .drain o.waiting.length)
    else if o.isOpen then none
    else some ({ p with stance := .gone }, .none)
  | .gone => none

end Peer

end Rehearsal

end BrokerWire
