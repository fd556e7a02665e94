import BrokerWire.BigEndian

/-!
# UTF-8 text and where it goes wrong

`Utf8.encode` and `Utf8.decode` pass between text and its UTF-8 bytes. When bytes are not UTF-8,
`decode` says where: the start of the first sequence that cannot be completed, and how many of
its bytes could still begin a character. Bytes that end inside a so far good sequence are
incomplete rather than invalid.
-/

namespace BrokerWire

namespace Utf8

/-- The first place at which bytes stop being UTF-8. -/
inductive Fault where
  /-- The `length` bytes from index `start` begin no character. -/
  | invalid (length start : Nat)
  /-- The bytes end inside the character that starts at index `start`. -/
  | incomplete (start : Nat)
  deriving DecidableEq, Repr

/-- A fault in words. -/
def Fault.message : Fault → String
  | .invalid length start =>
    "invalid utf-8 sequence of " ++ toString length ++ " bytes from index " ++ toString start
  | .incomplete start => "incomplete utf-8 byte sequence from index " ++ toString start

/-- An inclusive range that a byte has to lie in. -/
structure ByteRange where
  /-- The least admitted byte. -/
  low : UInt8
  /-- The greatest admitted byte. -/
  high : UInt8

/-- Membership in a range. -/
def ByteRange.admits (range : ByteRange) (b : UInt8) : Bool :=
  range.low ≤ b && b ≤ range.high

/-- The range of a continuation byte. -/
def continuation : ByteRange := ⟨0x80, 0xBF⟩

/-- The bytes that have to follow a first byte, as ranges; `none` if no character starts so. The
second byte is narrowed where overlong forms, surrogates or numbers past U+10FFFF would begin. -/
def owedAfter (first : UInt8) : Option (List ByteRange) :=
  if first ≤ 0x7F then some []
  else if first < 0xC2 then none
  else if first ≤ 0xDF then some [continuation]
  else if first = 0xE0 then some [⟨0xA0, 0xBF⟩, continuation]
  else if first = 0xED then some [⟨0x80, 0x9F⟩, continuation]
  else if first ≤ 0xEF then some [continuation, continuation]
  else if first = 0xF0 then some [⟨0x90, 0xBF⟩, continuation, continuation]
  else if first ≤ 0xF3 then some [continuation, continuation, continuation]
  else if first = 0xF4 then some [⟨0x80, 0x8F⟩, continuation, continuation]
  else none

/-- The first fault in bytes that stand at index `index`, when the character under way started at
`start` and still owes the bytes `owed`. -/
def faultFrom (index start : Nat) (owed : List ByteRange) : Bytes → Option Fault
  | [] => if owed.isEmpty then none else some (.incomplete start)
  | b :: rest =>
    match owed with
    | [] =>
      match owedAfter b with
      | none => some (.invalid 1 index)
      | some owed => faultFrom (index + 1) index owed rest
    | range :: owed =>
      if range.admits b then faultFrom (index + 1) start owed rest
      else some (.invalid (index - start) start)

/-- The first fault of a byte string, if it is not UTF-8. -/
def fault? (bytes : Bytes) : Option Fault :=
  faultFrom 0 0 [] bytes

/-- The UTF-8 bytes of a text. -/
def encode (text : String) : Bytes :=
  text.toUTF8.data.toList

/-- The text that bytes spell, or their first fault. Refused bytes have a fault; the one given in
its absence is never reported. -/
def decode (bytes : Bytes) : Except Fault String :=
  match String.fromUTF8? ⟨bytes.toArray⟩ with
  | some text => .ok text
  | none => .error ((fault? bytes).getD (.incomplete 0))

@[simp]
theorem decode_encode (text : String) : decode (encode text) = .ok text := by
  have h : String.fromUTF8? ⟨(encode text).toArray⟩ = some text := dif_pos text.isValidUTF8
  simp [decode, h]

/-- The bytes of a text are the only ones that spell it. -/
theorem decode_eq_ok_iff {bytes : Bytes} {text : String} :
    decode bytes = .ok text ↔ bytes = encode text := by
  refine ⟨fun h => ?_, fun h => h ▸ decode_encode text⟩
  unfold decode at h
  split at h
  · next found hfound =>
    obtain ⟨_, hsome⟩ := Option.dite_none_right_eq_some.mp hfound
    obtain rfl := Option.some.inj hsome
    cases h
    rfl
  · contradiction

end Utf8

end BrokerWire
