import BrokerWire.Link.Reconnect

/-!
# Disposing

A link is given up once. The first call to dispose it makes all other calls fail, waits until the
background has stopped, though not for ever, and then lets go of the connection. Later calls do
nothing.
-/

namespace BrokerWire

namespace Link

/-- Lets go of the connection and ends the call. -/
def finishDispose (l : Link) (call : CallId) : Link :=
  ({ l with slot := none } : Link).setStage call (.done (.ok []))

/-- Waits for the background, or goes on if it has stopped. -/
def windDown (l : Link) (call : CallId) (task : Task) (deadline : Nat) : Link :=
  if l.hasStopped task ∨ deadline ≤ l.clock then l.finishDispose call
  else l.setStage call (.winding task deadline)

/-- Begins to give up the link, if this is the first call to do so. -/
def enterDispose (l : Link) (call : CallId) : Link :=
  let earlier := l.disposals
  let l := { l with disposals := l.disposals + 1 }
  if earlier ≠ 0 then l.setStage call (.done (.ok []))
  else
    let tracked := l.tracked
    let l := { l with disposed := true, tracked := none }
    match tracked with
    | none => l.finishDispose call
    | some task => l.windDown call task (l.clock + l.config.grace.nanos)

end Link

end BrokerWire
