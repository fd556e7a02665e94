import BrokerWire.Error

/-!
# Reading bytes

A `Cursor` stands in a byte string, in front of the bytes of its window that are still unread. A
`Decoder` reads values off a cursor or fails, and either way leaves the cursor where it got to.
Main statements: `Decoder.take_append` and `Decoder.take_short`, which say for any number of bytes
what reading them gives.
-/

namespace BrokerWire

/-- A place in a byte string. -/
structure Cursor where
  /-- The whole byte string. -/
  buffer : Bytes
  /-- The number of bytes of it in front of the cursor. -/
  position : Nat
  /-- The bytes behind the cursor, up to the end of the window. -/
  rest : Bytes
  deriving DecidableEq, Repr

namespace Cursor

/-- The cursor at the start of a byte string. -/
def ofBytes (bytes : Bytes) : Cursor := ⟨bytes, 0, bytes⟩

/-- The cursor at the start of a window, as far as the window lies inside the byte string. -/
def window (bytes : Bytes) (offset size : Nat) : Cursor :=
  let start := min offset bytes.length
  ⟨bytes, start, (bytes.drop start).take size⟩

/-- The number of unread bytes. -/
def remaining (c : Cursor) : Nat := c.rest.length

/-- Whether any byte is unread. -/
def hasData (c : Cursor) : Bool := !c.rest.isEmpty

/-- Whether at least `n` bytes are unread. -/
def available (c : Cursor) (n : Nat) : Bool := n ≤ c.remaining

/-- The bytes of the whole byte string from one position to another. -/
def range (c : Cursor) (start stop : Nat) : Bytes :=
  (c.buffer.drop start).take (stop - start)

/-- The cursor behind the next `n` bytes. -/
def advance (c : Cursor) (n : Nat) : Cursor :=
  { c with position := c.position + n, rest := c.rest.drop n }

/-- A window that starts between two byte strings. -/
theorem window_append (front back : Bytes) (size : Nat) :
    window (front ++ back) front.length size =
      ⟨front ++ back, front.length, back.take size⟩ := by
  simp [window]

theorem remaining_advance (c : Cursor) (n : Nat) : (c.advance n).remaining = c.remaining - n := by
  simp [remaining, advance]

theorem advance_advance (c : Cursor) (m n : Nat) :
    (c.advance m).advance n = c.advance (m + n) := by
  simp [advance, Nat.add_assoc]

end Cursor

/-- A reading of a value off a cursor. -/
abbrev Decoder := EStateM WireError Cursor

namespace Decoder

/-- The next `n` bytes. If fewer are left, none is read. -/
def take (n : Nat) : Decoder Bytes := fun c =>
  let front := c.rest.take n
  if front.length < n then .error (.truncated n front.length) c
  else .ok front (c.advance n)

/-- Steps over the next `n` bytes. -/
def skip (n : Nat) : Decoder Unit := do
  let _ ← take n

/-- An unsigned byte. -/
def uint8 : Decoder UInt8 := do
  return UInt8.ofNat (BigEndian.decode (← take 1))

/-- A 16-bit integer. -/
def int16 : Decoder Int16 := do
  return BigEndian.toInt16 (← take 2)

/-- A 32-bit integer. -/
def int32 : Decoder Int32 := do
  return BigEndian.toInt32 (← take 4)

/-- A 64-bit integer. -/
def int64 : Decoder Int64 := do
  return BigEndian.toInt64 (← take 8)

/-- A number of elements or bytes; a negative one counts as zero. -/
def count : Decoder Nat := do
  return (← int32).toNatClampNeg

/-- A text behind its 16-bit length. Length -1 stands for no text, and any other length below one
for the empty text. -/
def string : Decoder (Option String) := do
  let size ← int16
  if size = -1 then return none
  if size ≤ 0 then return some ""
  let start := (← get).position
  match Utf8.decode (← take size.toNatClampNeg) with
  | .ok text => return some text
  | .error fault => throw (.protocol (.invalidUtf8 start fault))

/-- A text for which absence and emptiness are the same. -/
def name : Decoder String := do
  return (← string).getD ""

/-- Bytes behind their 32-bit length. Length -1 stands for no bytes at all, and any other length
below one for the empty byte string. -/
def bytes : Decoder (Option Bytes) := do
  let size ← int32
  if size = -1 then return none
  if size ≤ 0 then return some []
  return some (← take size.toNatClampNeg)

/-- Reads `n` further elements behind those already read, which come last one first. -/
def repeatedOnto (item : Decoder α) : Nat → List α → Decoder (List α)
  | 0, done => pure done.reverse
  | n + 1, done => do
    let a ← item
    repeatedOnto item n (a :: done)

/-- Exactly `n` elements, one behind the other. -/
def repeated (item : Decoder α) (n : Nat) : Decoder (List α) :=
  repeatedOnto item n []

/-- Elements behind their number. -/
def counted (item : Decoder α) : Decoder (List α) := do
  repeated item (← count)

/-- 32-bit integers behind their number. -/
def int32s : Decoder (List Int32) := counted int32

/-- What a decoder reads off the front of a byte string. -/
def decode (d : Decoder α) (data : Bytes) : Except WireError α :=
  match d.run (.ofBytes data) with
  | .ok a _ => .ok a
  | .error e _ => .error e

/-! ### Reading bytes and elements -/

/-- Reading as many bytes as stand in front gives those bytes and moves behind them. -/
theorem take_append (front rest buffer : Bytes) (position : Nat) :
    take front.length ⟨buffer, position, front ++ rest⟩ =
      .ok front ⟨buffer, position + front.length, rest⟩ := by
  simp [take, Cursor.advance]

/-- Reading more bytes than are left fails and moves nowhere. -/
theorem take_short {n : Nat} {c : Cursor} (h : c.rest.length < n) :
    take n c = .error (.truncated n c.rest.length) c := by
  have hfront : c.rest.take n = c.rest := List.take_of_length_le (Nat.le_of_lt h)
  simp [take, hfront, h]

/-- Elements already read come in front of those still to be read. -/
theorem repeatedOnto_eq (item : Decoder α) (n : Nat) (done : List α) :
    repeatedOnto item n done = (fun as => done.reverse ++ as) <$> repeated item n := by
  induction n generalizing done with
  | zero => simp [repeatedOnto, repeated]
  | succ n ih =>
    change (item >>= fun a => repeatedOnto item n (a :: done)) =
      (fun as => done.reverse ++ as) <$> (item >>= fun a => repeatedOnto item n [a])
    rw [map_bind]
    congr 1
    funext a
    rw [ih (a :: done), ih [a], ← comp_map]
    congr 1
    funext as
    simp

theorem repeated_zero (item : Decoder α) : repeated item 0 = pure [] := rfl

/-- A run of elements is its first element and the run of the others. -/
theorem repeated_succ (item : Decoder α) (n : Nat) :
    repeated item (n + 1) = item >>= fun a => (a :: ·) <$> repeated item n := by
  change (item >>= fun a => repeatedOnto item n [a]) = _
  congr 1
  funext a
  rw [repeatedOnto_eq]
  rfl

end Decoder

end BrokerWire
