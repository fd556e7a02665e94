import BrokerWire.Link.Basic

/-!
# Connecting

A link connects in episodes. The first starts when the initial wait is over, and each further one
when a call finds the connection in use lost. An episode announces and makes one attempt after the
other, with a growing wait between them, until one succeeds or the link is disposed; then calls
may use the connection again.
-/

namespace BrokerWire

namespace Link

/-- Starts an episode unless one is under way or the link is disposed. With a lost connection
given, nothing happens either if that connection is no longer the one in use. -/
def reconnect (l : Link) (lost : Option StreamId) : Link :=
  if l.disposed then l
  else if lost.isSome ∧ l.slot ≠ lost then l
  else if l.reconnecting ≠ 0 then l
  else
    { l with
      reconnecting := l.reconnecting + 1
      gateOpen := false
      episodes := l.episodes ++ [⟨lost, .spawned⟩]
      tracked := some (.episode l.episodes.length) }

/-- Takes note that a connection is lost. -/
def lose (l : Link) (stream : StreamId) : Link := l.reconnect (some stream)

/-- When the wait before the first attempt is over; it begins when it is first advanced. -/
def openingDeadline (l : Link) : Nat := l.opensAt.getD (l.clock + l.config.connectDelay.nanos)

/-- Advances the wait before the first attempt. -/
def pollOpening (l : Link) : Link :=
  if l.opened then l
  else if l.disposed then { l with opened := true }
  else if l.openingDeadline ≤ l.clock then ({ l with opened := true } : Link).reconnect none
  else { l with opensAt := some l.openingDeadline }

/-- What has become of an attempt to connect. -/
inductive Dial where
  /-- It is still under way. -/
  | pending
  /-- There is a connection. -/
  | established
  /-- There is none. -/
  | refused
  deriving DecidableEq, Repr

/-- Ends an episode, and lets calls use what is in the slot. -/
def endEpisode (l : Link) (index : Nat) : Link :=
  { l.setPhase index .over with
    reconnecting := l.reconnecting - 1
    gateOpen := true }

/-- Announces and begins an attempt, or ends the episode if the link is disposed. -/
def attempt (l : Link) (index : Nat) (number : UInt32) (wait : Duration) : Link :=
  if l.disposed then l.endEpisode index
  else (l.record (.announced number l.clock)).setPhase index (.dialing number wait)

/-- The attempt number after another; the last one is followed by itself. -/
def nextAttempt (number : UInt32) : UInt32 :=
  if number = 0xFFFFFFFF then number else number + 1

/-- Puts a new connection in use and ends the episode. -/
def establish (l : Link) (index : Nat) : Link :=
  ({ l with
    streams := l.streams ++ [{}]
    slot := some l.streams.length } : Link).endEpisode index

/-- Advances an episode. `dial` is what has become of the attempt under way. When an attempt has
succeeded and the link is disposed, `ioFirst` tells whether the success is noticed. -/
def pollEpisode (l : Link) (index : Nat) (dial : Dial) (ioFirst : Bool) : Link :=
  match l.episodes[index]? with
  | none => l
  | some episode =>
    match episode.phase with
    | .spawned => ({ l with slot := none } : Link).attempt index 1 l.config.backoff
    | .dialing number wait =>
      if l.disposed ∧ ¬(ioFirst ∧ dial = .established) then l.endEpisode index
      else
        match dial with
        | .pending => l
        | .established => l.establish index
        | .refused => l.setPhase index (.waiting number wait (l.clock + wait.nanos))
    | .waiting number wait deadline =>
      if l.disposed then l.endEpisode index
      else if deadline ≤ l.clock then
        l.attempt index (nextAttempt number) (wait.backoff l.config.multiplier)
      else l
    | .over => l

end Link

end BrokerWire
