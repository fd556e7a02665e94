import BrokerWire.BigEndian
import BrokerWire.Link.Turns

/-!
# The two directions of a connection

A stream is the client's end of one connection: the bytes that have arrived and are still unread,
and the bytes that were accepted from writers and that the far side has not taken yet. Of the
latter a stream holds a limited number.

When the far side aborts a connection, writers find it broken at once, but what has arrived before
can still be read, unless it is lost (`Stream.flush`). Behind it reading fails too, or it finds the
end of the stream, if the failure has been told to a writer.
-/

namespace BrokerWire

/-- Connections of a link, numbered in the order in which they were established. -/
abbrev StreamId := Nat

namespace Link

/-- The client's end of a connection. -/
structure Stream where
  /-- The bytes that have arrived and are unread. -/
  incoming : Bytes := []
  /-- Whether the stream ends behind them; nothing arrives after that. -/
  ended : Bool := false
  /-- Whether the far side has aborted the connection; nothing arrives after that. -/
  aborted : Bool := false
  /-- The bytes accepted from writers that the far side has not taken. -/
  outgoing : Bytes := []
  /-- Whose turn it is to write. -/
  writers : Turns := {}
  deriving DecidableEq, Repr

/-- What an attempt to read finds. -/
inductive Intake where
  /-- Some bytes, at least one. -/
  | bytes (chunk : Bytes)
  /-- Nothing yet. -/
  | nothing
  /-- The end of the stream. -/
  | ended
  /-- A broken connection. -/
  | aborted
  deriving DecidableEq, Repr

/-- What an attempt to write achieves. -/
inductive Outlet where
  /-- All bytes were accepted. -/
  | complete
  /-- Only some were, and these are left. -/
  | partly (rest : Bytes)
  /-- The connection is broken. -/
  | aborted
  deriving DecidableEq, Repr

namespace Stream

/-- Takes at most `n` of the bytes that have arrived. That the stream has ended or is broken shows
only behind them. -/
def take (s : Stream) (n : Nat) : Intake × Stream :=
  if s.incoming ≠ [] ∧ 0 < n then
    (.bytes (s.incoming.take n), { s with incoming := s.incoming.drop n })
  else if s.ended then (.ended, s)
  else if s.aborted then (.aborted, s)
  else (.nothing, s)

/-- Gives the stream as many of the bytes as it accepts while it holds fewer than `window`. Giving
no bytes at all succeeds even on a broken connection. -/
def put (s : Stream) (window : Nat) (bytes : Bytes) : Outlet × Bytes × Stream :=
  if bytes = [] then (.complete, [], s)
  else if s.aborted then (.aborted, [], s)
  else
    let room := window - s.outgoing.length
    let accepted := bytes.take room
    let rest := bytes.drop room
    (if rest = [] then .complete else .partly rest, accepted,
      { s with outgoing := s.outgoing ++ accepted })

/-- Bytes arrive from the far side. -/
def arrive (s : Stream) (bytes : Bytes) : Stream :=
  if s.ended ∨ s.aborted then s else { s with incoming := s.incoming ++ bytes }

/-- The stream ends. -/
def finish (s : Stream) : Stream := { s with ended := true }

/-- The far side aborts the connection. -/
def abort (s : Stream) : Stream := { s with aborted := true }

/-- What has arrived on an aborted connection and is unread is lost. -/
def flush (s : Stream) : Stream := if s.aborted then { s with incoming := [] } else s

/-- The far side takes `n` of the bytes it has been sent. -/
def drain (s : Stream) (n : Nat) : Stream := { s with outgoing := s.outgoing.drop n }

end Stream

end Link

end BrokerWire
