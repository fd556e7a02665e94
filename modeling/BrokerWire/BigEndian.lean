/-!
# Big-endian integers

A whole number that needs no more than `width` digits to the base 256 is written as `width` bytes,
most significant byte first.
`encode` and `decode` work for every width, and the fixed-width signed integers of the wire go
through them as their two's-complement words. Main statements: `decode_encode` and
`encode_decode`, so each number of a width has exactly one spelling.
-/

namespace BrokerWire

/-- A string of bytes, first byte first. -/
abbrev Bytes := List UInt8

namespace BigEndian

/-- How many numbers `width` digits can spell. -/
def capacity : Nat → Nat
  | 0 => 1
  | width + 1 => 256 * capacity width

/-- The `width` low-order base-256 digits of `n`, most significant first. -/
def encode : Nat → Nat → Bytes
  | 0, _ => []
  | width + 1, n => UInt8.ofNat (n / capacity width) :: encode width n

/-- The number whose base-256 digits, most significant first, are the given bytes. -/
def decode (bytes : Bytes) : Nat :=
  bytes.foldl (fun n b => n * 256 + b.toNat) 0

theorem capacity_succ (width : Nat) : capacity (width + 1) = 256 * capacity width := rfl

theorem capacity_pos (width : Nat) : 0 < capacity width := by
  induction width with
  | zero => decide
  | succ width ih => exact Nat.mul_pos (by decide) ih

@[simp]
theorem length_encode (width n : Nat) : (encode width n).length = width := by
  induction width with
  | zero => rfl
  | succ width ih => simp [encode, ih]

/-- Digits read after others have been read, shifted past them. -/
theorem foldl_digits (bytes : Bytes) (n : Nat) :
    bytes.foldl (fun n b => n * 256 + b.toNat) n =
      n * capacity bytes.length + decode bytes := by
  induction bytes generalizing n with
  | nil => simp [decode, capacity]
  | cons b bytes ih =>
    have hb : decode (b :: bytes) = b.toNat * capacity bytes.length + decode bytes :=
      (ih (0 * 256 + b.toNat)).trans (by rw [Nat.zero_mul, Nat.zero_add])
    rw [hb, List.foldl_cons, ih, List.length_cons, capacity_succ, Nat.add_mul, Nat.add_assoc,
      Nat.mul_assoc]

theorem decode_cons (b : UInt8) (bytes : Bytes) :
    decode (b :: bytes) = b.toNat * capacity bytes.length + decode bytes :=
  (foldl_digits bytes (0 * 256 + b.toNat)).trans (by rw [Nat.zero_mul, Nat.zero_add])

theorem decode_lt (bytes : Bytes) : decode bytes < capacity bytes.length := by
  induction bytes with
  | nil => simp [decode, capacity]
  | cons b bytes ih =>
    have hb := b.toNat_lt
    rw [decode_cons, List.length_cons, capacity_succ]
    calc b.toNat * capacity bytes.length + decode bytes
        < b.toNat * capacity bytes.length + capacity bytes.length := by omega
      _ = (b.toNat + 1) * capacity bytes.length := by rw [Nat.add_mul, Nat.one_mul]
      _ ≤ 256 * capacity bytes.length := Nat.mul_le_mul_right _ (by omega)

/-- Reading back the digits gives the number, up to what the width cannot hold. -/
theorem decode_encode (width n : Nat) : decode (encode width n) = n % capacity width := by
  induction width with
  | zero => simp [encode, decode, capacity, Nat.mod_one]
  | succ width ih =>
    rw [encode, decode_cons, length_encode, ih, capacity_succ, Nat.mul_comm 256, Nat.mod_mul]
    simp [Nat.mul_comm, Nat.add_comm]

/-- The digits of a number that bytes spell are those bytes. -/
theorem encode_decode (bytes : Bytes) : encode bytes.length (decode bytes) = bytes := by
  suffices h : ∀ k, encode bytes.length (k * capacity bytes.length + decode bytes) = bytes by
    simpa using h 0
  induction bytes with
  | nil => intro k; rfl
  | cons b bytes ih =>
    intro k
    have hsplit : k * capacity (bytes.length + 1) + decode (b :: bytes) =
        (k * 256 + b.toNat) * capacity bytes.length + decode bytes := by
      rw [decode_cons, capacity_succ, Nat.add_mul, ← Nat.mul_assoc, Nat.add_assoc]
    rw [List.length_cons, encode, hsplit, ih, Nat.mul_comm _ (capacity bytes.length),
      Nat.mul_add_div (capacity_pos _), Nat.div_eq_of_lt (decode_lt bytes)]
    congr 1
    apply UInt8.toNat.inj
    have hb := b.toNat_lt
    simp

/-! ### Signed integers -/

/-- The two bytes of a 16-bit integer. -/
def ofInt16 (x : Int16) : Bytes := encode 2 x.toUInt16.toNat

/-- The four bytes of a 32-bit integer. -/
def ofInt32 (x : Int32) : Bytes := encode 4 x.toUInt32.toNat

/-- The eight bytes of a 64-bit integer. -/
def ofInt64 (x : Int64) : Bytes := encode 8 x.toUInt64.toNat

/-- The 16-bit integer that two bytes spell. -/
def toInt16 (bytes : Bytes) : Int16 := (UInt16.ofNat (decode bytes)).toInt16

/-- The 32-bit integer that four bytes spell. -/
def toInt32 (bytes : Bytes) : Int32 := (UInt32.ofNat (decode bytes)).toInt32

/-- The 64-bit integer that eight bytes spell. -/
def toInt64 (bytes : Bytes) : Int64 := (UInt64.ofNat (decode bytes)).toInt64

@[simp]
theorem length_ofInt16 (x : Int16) : (ofInt16 x).length = 2 := length_encode ..

@[simp]
theorem length_ofInt32 (x : Int32) : (ofInt32 x).length = 4 := length_encode ..

@[simp]
theorem length_ofInt64 (x : Int64) : (ofInt64 x).length = 8 := length_encode ..

@[simp]
theorem toInt16_ofInt16 (x : Int16) : toInt16 (ofInt16 x) = x := by
  simp [toInt16, ofInt16, decode_encode, capacity]

@[simp]
theorem toInt32_ofInt32 (x : Int32) : toInt32 (ofInt32 x) = x := by
  simp [toInt32, ofInt32, decode_encode, capacity]

@[simp]
theorem toInt64_ofInt64 (x : Int64) : toInt64 (ofInt64 x) = x := by
  simp [toInt64, ofInt64, decode_encode, capacity]

/-- Two bytes are the spelling of the number they spell. -/
theorem ofInt16_toInt16 {bytes : Bytes} (h : bytes.length = 2) :
    ofInt16 (toInt16 bytes) = bytes := by
  have hnat : (UInt16.ofNat (decode bytes)).toNat = decode bytes :=
    UInt16.toNat_ofNat_of_lt (h ▸ decode_lt bytes : decode bytes < capacity 2)
  rw [ofInt16, toInt16, UInt16.toUInt16_toInt16, hnat, ← h, encode_decode]

/-- Four bytes are the spelling of the number they spell. -/
theorem ofInt32_toInt32 {bytes : Bytes} (h : bytes.length = 4) :
    ofInt32 (toInt32 bytes) = bytes := by
  have hnat : (UInt32.ofNat (decode bytes)).toNat = decode bytes :=
    UInt32.toNat_ofNat_of_lt (h ▸ decode_lt bytes : decode bytes < capacity 4)
  rw [ofInt32, toInt32, UInt32.toUInt32_toInt32, hnat, ← h, encode_decode]

/-- Eight bytes are the spelling of the number they spell. -/
theorem ofInt64_toInt64 {bytes : Bytes} (h : bytes.length = 8) :
    ofInt64 (toInt64 bytes) = bytes := by
  have hnat : (UInt64.ofNat (decode bytes)).toNat = decode bytes :=
    UInt64.toNat_ofNat_of_lt (h ▸ decode_lt bytes : decode bytes < capacity 8)
  rw [ofInt64, toInt64, UInt64.toUInt64_toInt64, hnat, ← h, encode_decode]

/-- With four bytes or more there is a 32-bit integer in front. -/
theorem exists_ofInt32_append {bytes : Bytes} (h : 4 ≤ bytes.length) :
    ∃ x rest, bytes = ofInt32 x ++ rest := by
  refine ⟨toInt32 (bytes.take 4), bytes.drop 4, ?_⟩
  rw [ofInt32_toInt32 (List.length_take_of_le h), List.take_append_drop]

/-- With eight bytes or more there is a 64-bit integer in front. -/
theorem exists_ofInt64_append {bytes : Bytes} (h : 8 ≤ bytes.length) :
    ∃ x rest, bytes = ofInt64 x ++ rest := by
  refine ⟨toInt64 (bytes.take 8), bytes.drop 8, ?_⟩
  rw [ofInt64_toInt64 (List.length_take_of_le h), List.take_append_drop]

end BigEndian

end BrokerWire
