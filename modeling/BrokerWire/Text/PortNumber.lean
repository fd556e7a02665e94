/-!
# Port numbers

A port is a 16-bit number in decimal digits. A leading plus sign is accepted, other signs, blanks
and separators are not, and of several faults the leftmost one is told.
-/

namespace BrokerWire

/-- Why a text is no port number. -/
inductive PortFault where
  /-- There is nothing to read. -/
  | empty
  /-- Something other than a decimal digit stands in the text. -/
  | invalidDigit
  /-- The number is above 65535. -/
  | tooLarge
  deriving DecidableEq, Repr

/-- A fault in words. -/
def PortFault.message : PortFault → String
  | .empty => "cannot parse integer from empty string"
  | .invalidDigit => "invalid digit found in string"
  | .tooLarge => "number too large to fit in target type"

/-- The value of a decimal digit. -/
def digitValue? (c : Char) : Option Nat :=
  if c.isDigit then some (c.toNat - '0'.toNat) else none

/-- Reads further digits behind the number `n`. -/
def portFrom (n : UInt16) : List Char → Except PortFault UInt16
  | [] => .ok n
  | c :: cs =>
    match digitValue? c with
    | none => .error .invalidDigit
    | some d =>
      if n.toNat * 10 + d < 65536 then portFrom (UInt16.ofNat (n.toNat * 10 + d)) cs
      else .error .tooLarge

/-- The port number that a text spells. -/
def portOf (text : String) : Except PortFault UInt16 :=
  match text.toList with
  | [] => .error .empty
  | ['+'] => .error .invalidDigit
  | '+' :: digits => portFrom 0 digits
  | digits => portFrom 0 digits

end BrokerWire
