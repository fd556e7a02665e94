import BrokerWire.ApiKey
import BrokerWire.Checksum
import BrokerWire.Error

/-!
# Writing bytes

A `FrameBuffer` grows at its end. Four bytes can be reserved in it and later be overwritten with
the number of bytes behind them or with the checksum of those bytes, so that lengths and checksums
need no second pass. An `Encoder` writes to a frame buffer or fails; what it wrote before it
failed stays written. Main statement: `FrameBuffer.toList_overwrite`, an overwriting changes the
bytes of its own place and no others.
-/

namespace BrokerWire

/-- Bytes that are being written. -/
structure FrameBuffer where
  /-- What has been written. -/
  bytes : Array UInt8
  deriving DecidableEq, Repr

namespace FrameBuffer

/-- Nothing written yet. -/
def empty : FrameBuffer := ⟨#[]⟩

/-- What has been written. -/
def toList (b : FrameBuffer) : Bytes := b.bytes.toList

/-- The number of bytes written, which is the position of the next one. -/
def size (b : FrameBuffer) : Nat := b.bytes.size

/-- Whether nothing has been written. -/
def isEmpty (b : FrameBuffer) : Bool := b.bytes.isEmpty

/-- Writes further bytes. -/
def append (b : FrameBuffer) (bytes : Bytes) : FrameBuffer := ⟨b.bytes ++ bytes⟩

/-- The bytes from a position on. -/
def since (b : FrameBuffer) (position : Nat) : Bytes :=
  (b.bytes.extract position b.bytes.size).toList

/-- Puts bytes in place of those at a position; what would lie past the end is left out. -/
def overwrite (b : FrameBuffer) (position : Nat) : Bytes → FrameBuffer
  | [] => b
  | x :: xs => overwrite ⟨b.bytes.setIfInBounds position x⟩ (position + 1) xs

/-- The number of bytes that are reserved at a time. -/
def placeholderSize : Nat := 4

/-- Whether four bytes that can be overwritten have been written at a position. -/
def holds (b : FrameBuffer) (position : Nat) : Bool := position + placeholderSize ≤ b.size

/-- Overwrites the reserved bytes at a position with the number of bytes behind them, modulo
`2 ^ 32`. -/
def patchLength (b : FrameBuffer) (position : Nat) : FrameBuffer :=
  let length := Int32.ofNat (b.size - (position + placeholderSize))
  b.overwrite position (BigEndian.ofInt32 length)

/-- Overwrites the reserved bytes at a position with the checksum of the bytes behind them. -/
def patchChecksum (b : FrameBuffer) (position : Nat) : FrameBuffer :=
  let crc := Checksum.crc32 (b.since (position + placeholderSize))
  b.overwrite position (Checksum.stored crc)

/-- As `patchLength`; `none` if the buffer ends before the reserved bytes do. -/
def patchLength? (b : FrameBuffer) (position : Nat) : Option FrameBuffer :=
  if b.holds position then some (b.patchLength position) else none

/-- As `patchChecksum`; `none` if the buffer ends before the reserved bytes do. -/
def patchChecksum? (b : FrameBuffer) (position : Nat) : Option FrameBuffer :=
  if b.holds position then some (b.patchChecksum position) else none

/-! ### What the operations do to the bytes -/

@[simp]
theorem toList_empty : empty.toList = [] := rfl

@[simp]
theorem toList_append (b : FrameBuffer) (bytes : Bytes) :
    (b.append bytes).toList = b.toList ++ bytes := by
  simp [append, toList]

@[simp]
theorem length_toList (b : FrameBuffer) : b.toList.length = b.size := by
  simp [toList, size]

@[simp]
theorem size_append (b : FrameBuffer) (bytes : Bytes) :
    (b.append bytes).size = b.size + bytes.length := by
  rw [← length_toList, toList_append, List.length_append, length_toList]

theorem toList_since (b : FrameBuffer) (position : Nat) :
    b.since position = b.toList.drop position := by
  simp only [since, toList, Array.toList_extract, List.extract_eq_take_drop]
  exact List.take_of_length_le (by simp)

/-- An overwriting that fits changes the bytes at its own place only. -/
theorem toList_overwrite (bytes : Bytes) (b : FrameBuffer) (position : Nat)
    (h : position + bytes.length ≤ b.size) :
    (b.overwrite position bytes).toList =
      b.toList.take position ++ bytes ++ b.toList.drop (position + bytes.length) := by
  induction bytes generalizing b position with
  | nil => simp [overwrite]
  | cons x xs ih =>
    rw [List.length_cons] at h
    have hlt : position < b.toList.length := by rw [length_toList]; omega
    have hset : (⟨b.bytes.setIfInBounds position x⟩ : FrameBuffer).toList =
        b.toList.set position x := by simp [toList]
    have hsize : (⟨b.bytes.setIfInBounds position x⟩ : FrameBuffer).size = b.size := by
      simp [size]
    have htake : (b.toList.set position x).take (position + 1) = b.toList.take position ++ [x] := by
      rw [List.set_eq_take_append_cons_drop, if_pos hlt, List.take_append,
        List.length_take_of_le (Nat.le_of_lt hlt)]
      simp [List.take_take]
    rw [overwrite, ih _ _ (by rw [hsize]; omega), hset, htake,
      List.drop_set_of_lt (by omega), List.length_cons]
    simp [Nat.add_assoc, Nat.add_comm 1]

end FrameBuffer

/-- A writing to a frame buffer. -/
abbrev Encoder := EStateM WireError FrameBuffer

namespace Encoder

/-- Writes bytes as they are. -/
def raw (bytes : Bytes) : Encoder Unit :=
  modify (·.append bytes)

/-- An unsigned byte. -/
def uint8 (x : UInt8) : Encoder Unit := raw [x]

/-- A signed byte. -/
def int8 (x : Int8) : Encoder Unit := raw [x.toUInt8]

/-- A 16-bit integer. -/
def int16 (x : Int16) : Encoder Unit := raw (BigEndian.ofInt16 x)

/-- A 32-bit integer. -/
def int32 (x : Int32) : Encoder Unit := raw (BigEndian.ofInt32 x)

/-- A 64-bit integer. -/
def int64 (x : Int64) : Encoder Unit := raw (BigEndian.ofInt64 x)

/-- The number of a kind of request. -/
def apiKey (key : ApiKey) : Encoder Unit := int16 key.code

/-- The number of the elements that follow. -/
def count (n : Nat) : Encoder Unit := int32 (Int32.ofNat n)

/-- A text behind its 16-bit length. No text and the empty text are both written as length -1. A
text that is too long is refused as a whole. -/
def string (text : Option String) : Encoder Unit :=
  let bytes := Utf8.encode (text.getD "")
  if bytes.length > Int16.maxValue.toNatClampNeg then
    throw (.protocol (.stringTooLong bytes.length))
  else if bytes.isEmpty then int16 (-1)
  else do
    int16 (Int16.ofNat bytes.length)
    raw bytes

/-- Bytes behind their 32-bit length; no bytes at all are written as length -1. Too many bytes are
refused as a whole. -/
def bytes : Option Bytes → Encoder Unit
  | none => int32 (-1)
  | some bytes =>
    if bytes.length > Int32.maxValue.toNatClampNeg then
      throw (.protocol (.arrayTooLong bytes.length))
    else do
      int32 (Int32.ofNat bytes.length)
      raw bytes

/-- 32-bit integers behind their number. -/
def int32s (xs : List Int32) : Encoder Unit := do
  count xs.length
  xs.forM int32

/-- Reserves four zero bytes and gives their position. -/
def placeholder : Encoder Nat := do
  let position := (← get).size
  raw (List.replicate FrameBuffer.placeholderSize 0)
  return position

/-- Fills in the length of what follows the bytes that were reserved at a position. -/
def patchLength (position : Nat) : Encoder Unit :=
  modify (·.patchLength position)

/-- Fills in the checksum of what follows the bytes that were reserved at a position. -/
def patchChecksum (position : Nat) : Encoder Unit :=
  modify (·.patchChecksum position)

/-- What `body` writes, behind its length. -/
def delimited (body : Encoder Unit) : Encoder Unit := do
  let length ← placeholder
  body
  patchLength length

/-- What `body` writes, behind its checksum. -/
def checksummed (body : Encoder Unit) : Encoder Unit := do
  let crc ← placeholder
  body
  patchChecksum crc

/-- What an encoder writes when it starts with nothing. -/
def encode (e : Encoder Unit) : Except WireError Bytes :=
  match e.run .empty with
  | .ok _ b => .ok b.toList
  | .error e _ => .error e

end Encoder

end BrokerWire
