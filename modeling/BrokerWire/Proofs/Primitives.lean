import BrokerWire.Proofs.Emission

/-!
# Values that are written

A `Primitive` is a value that can be put into a buffer at a time: an integer of one of the widths, a
text, a byte string or a list of integers. Writing it is an emission of known bytes and of a known
size (`Primitive.emits_write`, `Primitive.length_emission`). A value that is too long for its
length field is refused and takes no bytes (`Primitive.size_of_write_error`).
-/

namespace BrokerWire

/-- A value that is put into a buffer. The number of a kind of request is a 16-bit integer. -/
inductive Primitive where
  /-- An unsigned byte. -/
  | uint8 (x : UInt8)
  /-- A signed byte. -/
  | int8 (x : Int8)
  /-- A 16-bit integer. -/
  | int16 (x : Int16)
  /-- A 32-bit integer. -/
  | int32 (x : Int32)
  /-- A 64-bit integer. -/
  | int64 (x : Int64)
  /-- A text or none. -/
  | string (text : Option String)
  /-- Bytes or none at all. -/
  | array (bytes : Option Bytes)
  /-- 32-bit integers. -/
  | int32s (xs : List Int32)
  deriving DecidableEq, Repr

namespace Primitive

/-- Puts the value. -/
def write : Primitive → Encoder Unit
  | uint8 x => Encoder.uint8 x
  | int8 x => Encoder.int8 x
  | int16 x => Encoder.int16 x
  | int32 x => Encoder.int32 x
  | int64 x => Encoder.int64 x
  | string text => Encoder.string text
  | array bytes => Encoder.bytes bytes
  | int32s xs => Encoder.int32s xs

/-- What is put, wherever it is. -/
def emission : Primitive → Emission
  | uint8 x => ⟨[x], none⟩
  | int8 x => ⟨[x.toUInt8], none⟩
  | int16 x => ⟨BigEndian.ofInt16 x, none⟩
  | int32 x => ⟨BigEndian.ofInt32 x, none⟩
  | int64 x => ⟨BigEndian.ofInt64 x, none⟩
  | string text => Emission.string text
  | array bytes => Emission.array bytes
  | int32s xs =>
    ⟨BigEndian.ofInt32 (Int32.ofNat xs.length) ++ xs.flatMap BigEndian.ofInt32, none⟩

/-- How many bytes the value takes, which is none if it is too long for its length field. -/
def size : Primitive → Nat
  | uint8 _ => 1
  | int8 _ => 1
  | int16 _ => 2
  | int32 _ => 4
  | int64 _ => 8
  | string text =>
    let length := (Utf8.encode (text.getD "")).length
    if length > 32767 then 0 else 2 + length
  | array none => 4
  | array (some bytes) => if bytes.length > 2147483647 then 0 else 4 + bytes.length
  | int32s xs => 4 + 4 * xs.length

theorem emits_write (value : Primitive) : value.write.Emits value.emission := by
  cases value with
  | string text => exact Encoder.emits_string text
  | array bytes => exact Encoder.emits_bytes bytes
  | int32s xs =>
    have hxs : (xs.forM Encoder.int32).Emits ⟨xs.flatMap BigEndian.ofInt32, none⟩ := by
      rw [← Emission.each_ok]
      exact Encoder.Emits.forM fun x _ => Encoder.emits_raw _
    exact (Encoder.emits_raw _).bind hxs
  | _ => exact Encoder.emits_raw _

theorem length_emission_string (text : Option String) :
    (Emission.string text).bytes.length = (string text).size := by
  have hmax : Int16.maxValue.toNatClampNeg = 32767 := by decide
  simp only [Emission.string, size, hmax]
  split
  · rfl
  · split
    · next h => simp [List.isEmpty_iff.mp h]
    · simp

theorem length_emission_array (bytes : Option Bytes) :
    (Emission.array bytes).bytes.length = (array bytes).size := by
  have hmax : Int32.maxValue.toNatClampNeg = 2147483647 := by decide
  cases bytes with
  | none => rfl
  | some bytes =>
    simp only [Emission.array, size, hmax]
    split
    · rfl
    · simp

@[simp]
theorem length_emission (value : Primitive) : value.emission.bytes.length = value.size := by
  cases value with
  | string text => exact length_emission_string text
  | array bytes => exact length_emission_array bytes
  | int32s xs => simp [emission, size, List.map_const', Nat.mul_comm]
  | _ => rfl

theorem bytes_of_failure {value : Primitive} {e : WireError}
    (h : value.emission.failure = some e) : value.emission.bytes = [] := by
  revert h
  cases value with
  | string text =>
    simp only [emission, Emission.string]
    split
    · exact fun _ => rfl
    · split <;> simp
  | array bytes =>
    cases bytes with
    | none => simp [emission, Emission.array]
    | some bytes =>
      simp only [emission, Emission.array]
      split
      · exact fun _ => rfl
      · simp
  | _ => simp [emission]

/-- A value that is refused takes no bytes and leaves the buffer as it was. -/
theorem size_of_write_error {value : Primitive} {e : WireError} {b b' : FrameBuffer}
    (h : value.write b = .error e b') : b' = b ∧ value.size = 0 := by
  rw [value.emits_write b, Emission.onto] at h
  cases hfailure : value.emission.failure with
  | none => rw [hfailure] at h; contradiction
  | some e' =>
    have hbytes := bytes_of_failure hfailure
    rw [hfailure, hbytes, FrameBuffer.append_nil] at h
    cases h
    exact ⟨rfl, by rw [← length_emission, hbytes, List.length_nil]⟩

end Primitive

end BrokerWire
