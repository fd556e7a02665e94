/-!
# Taking turns

Calls that need the same thing get it one after the other, in the order in which they asked. When
the holder leaves, the call that has waited longest holds it from that moment on.
-/

namespace BrokerWire

/-- Calls on a link, numbered in the order in which they began. -/
abbrev CallId := Nat

namespace Link

/-- Who holds something and who waits for it. -/
structure Turns where
  /-- The call whose turn it is. -/
  holder : Option CallId := none
  /-- The calls that wait, longest wait first. -/
  waiting : List CallId := []
  deriving DecidableEq, Repr

namespace Turns

/-- Asks for a turn; a call that already holds it or waits for it changes nothing. -/
def join (turns : Turns) (call : CallId) : Turns :=
  match turns.holder with
  | none => { turns with holder := some call }
  | some holder =>
    if holder = call ∨ call ∈ turns.waiting then turns
    else { turns with waiting := turns.waiting ++ [call] }

/-- Gives up a turn or the wait for it. -/
def leave (turns : Turns) (call : CallId) : Turns :=
  if turns.holder = some call then ⟨turns.waiting.head?, turns.waiting.tail⟩
  else { turns with waiting := turns.waiting.filter (· ≠ call) }

end Turns

end Link

end BrokerWire
