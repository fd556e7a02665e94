import BrokerWire.Proofs.Checksum.Division

/-!
# Bursts of errors and the checksum

The bits of a byte string go through the register one after the other, from the first byte to the
last and in each byte from the least significant on (`foldl_bits`). Up to 32 of them are one word of
the register (`foldl_takeBit`), clear bits in front of them change nothing in an empty register,
and clear bits behind them only shift it. As a step loses nothing, errors within 32 consecutive bits
always leave something (`IsBurst.foldl_ne_zero`), and that is the difference that they make to the
checksum (`crc32_flipped_ne`).
-/

namespace BrokerWire

namespace Checksum

/-! ### Bits -/

/-- The bits of a byte, least significant first. -/
def byteBits (b : UInt8) : List Bool := (List.range 8).map b.toNat.testBit

/-- The bits of a byte string, byte by byte. -/
def bits (bytes : Bytes) : List Bool := bytes.flatMap byteBits

/-- The number that bits spell, least significant first. -/
def value : List Bool → Nat
  | [] => 0
  | bit :: bits => bit.toNat + 2 * value bits

theorem length_byteBits (b : UInt8) : (byteBits b).length = 8 := by
  rw [byteBits, List.length_map, List.length_range]

theorem bits_cons (b : UInt8) (bytes : Bytes) : bits (b :: bytes) = byteBits b ++ bits bytes :=
  List.flatMap_cons

theorem length_bits (bytes : Bytes) : (bits bytes).length = 8 * bytes.length := by
  induction bytes with
  | nil => rfl
  | cons b bytes ih =>
    rw [bits_cons, List.length_append, length_byteBits, ih, List.length_cons, Nat.mul_succ,
      Nat.add_comm]

theorem value_byteBits (b : UInt8) : value (byteBits b) = b.toNat := by
  have h : ∀ n : Fin 256, value ((List.range 8).map n.val.testBit) = n := by decide +kernel
  exact h ⟨b.toNat, b.toNat_lt⟩

theorem getElem?_bits (bytes : Bytes) (i : Nat) :
    (bits bytes)[i]? = bytes[i / 8]?.map fun b => b.toNat.testBit (i % 8) := by
  induction bytes generalizing i with
  | nil => simp [bits]
  | cons b bytes ih =>
    have hlength := length_byteBits b
    rw [bits_cons]
    by_cases h : i < 8
    · rw [List.getElem?_append_left (by omega), Nat.div_eq_of_lt h, Nat.mod_eq_of_lt h]
      simp [byteBits, h]
    · rw [List.getElem?_append_right (by omega), hlength, ih]
      have hdiv : i / 8 = (i - 8) / 8 + 1 := by omega
      have hmod : (i - 8) % 8 = i % 8 := by omega
      rw [hdiv, List.getElem?_cons_succ, hmod]

/-! ### Bits in the register -/

/-- Takes one bit into the register. -/
def takeBit (register : UInt32) (bit : Bool) : UInt32 := bitStep (register ^^^ bit.toUInt32)

theorem value_lt {n : Nat} {bits : List Bool} (h : bits.length ≤ n) : value bits < 1 <<< n := by
  induction bits generalizing n with
  | nil =>
    rw [value, Nat.one_shiftLeft]
    exact Nat.two_pow_pos n
  | cons bit bits ih =>
    obtain ⟨n, rfl⟩ := Nat.exists_eq_add_of_lt h
    have hbit := bit.toNat_le
    have hbits := ih (n := bits.length + n) (by omega)
    rw [value, Nat.shiftLeft_succ]
    omega

theorem value_eq_zero {bits : List Bool} : value bits = 0 ↔ ∀ bit ∈ bits, bit = false := by
  induction bits with
  | nil => simp [value]
  | cons bit bits ih =>
    have htwo : 2 * value bits = 0 ↔ value bits = 0 := by omega
    rw [List.forall_mem_cons, ← ih, value, Nat.add_eq_zero_iff, Bool.toNat_eq_zero, htwo]

/-- A step takes the lowest bit of a number out of it. -/
theorem bitStep_value (bit : Bool) {n : Nat} (h : n < 2147483648) :
    bitStep (UInt32.ofNat (bit.toNat + 2 * n)) = bitStep bit.toUInt32 ^^^ UInt32.ofNat n := by
  cases bit with
  | false =>
    rw [← UInt32.toNat_inj, toNat_bitStep_of_even (by simp)]
    simp [Bool.toUInt32, bitStep]
    omega
  | true =>
    have hodd : UInt32.ofNat (true.toNat + 2 * n) &&& 1 = 1 := by
      rw [and_one_eq_one]
      simp
    have hshift : UInt32.ofNat (true.toNat + 2 * n) >>> 1 = UInt32.ofNat n := by
      rw [← UInt32.toNat_inj]
      simp [Nat.shiftRight_eq_div_pow]
      omega
    have hone : bitStep true.toUInt32 = polynomial := by decide
    rw [bitStep, if_pos hodd, hshift, hone, UInt32.xor_comm]

/-- Up to 32 bits are taken into the register as one word. -/
theorem foldl_takeBit {window : List Bool} (h : window.length ≤ 32) (r : UInt32) :
    window.foldl takeBit r = bitSteps window.length (r ^^^ UInt32.ofNat (value window)) := by
  induction window generalizing r with
  | nil => simp [value, bitSteps]
  | cons bit window ih =>
    have hlt : value window < 2147483648 := value_lt (Nat.le_of_succ_le_succ h)
    rw [List.foldl_cons, ih (Nat.le_of_succ_le h), List.length_cons, bitSteps, value, bitStep_xor,
      bitStep_value bit hlt, takeBit, bitStep_xor, UInt32.xor_assoc]

theorem foldl_takeBit_clear {bits : List Bool} (h : ∀ bit ∈ bits, bit = false) (r : UInt32) :
    bits.foldl takeBit r = bitSteps bits.length r := by
  induction bits generalizing r with
  | nil => rfl
  | cons bit bits ih =>
    obtain ⟨rfl, hbits⟩ := List.forall_mem_cons.mp h
    rw [List.foldl_cons, ih hbits, List.length_cons, bitSteps, takeBit, Bool.toUInt32]
    simp

theorem foldl_byteBits (r : UInt32) (b : UInt8) :
    (byteBits b).foldl takeBit r = bitwiseByte r b := by
  have hlength := length_byteBits b
  have hb : UInt32.ofNat b.toNat = b.toUInt32 := by simp
  rw [foldl_takeBit (by omega), hlength, value_byteBits, hb, bitwiseByte]

theorem foldl_bits (r : UInt32) (bytes : Bytes) :
    (bits bytes).foldl takeBit r = bytes.foldl bitwiseByte r := by
  rw [bits, List.foldl_flatMap]
  exact congrArg (fun step => bytes.foldl step r) (funext fun r => funext (foldl_byteBits r))

/-! ### Bursts -/

/-- Some bit is set, and all bits that are set lie within 32 consecutive ones. -/
def IsBurst (error : Bytes) : Prop :=
  ∃ start : Nat, (∃ i : Nat, (bits error)[i]? = some true) ∧
    ∀ i : Nat, (bits error)[i]? = some true → start ≤ i ∧ i < start + 32

/-- A burst is a window of at most 32 bits among clear ones. -/
theorem IsBurst.split {error : Bytes} (h : IsBurst error) :
    ∃ front window back, bits error = front ++ (window ++ back) ∧ window.length ≤ 32 ∧
      (∀ bit ∈ front, bit = false) ∧ true ∈ window ∧ ∀ bit ∈ back, bit = false := by
  obtain ⟨start, ⟨i, hi⟩, hwithin⟩ := h
  have hclear : ∀ (j : Nat) (bit : Bool), (bits error)[j]? = some bit →
      ¬(start ≤ j ∧ j < start + 32) → bit = false := by
    intro j bit hbit hout
    cases bit with
    | false => rfl
    | true => exact absurd (hwithin j hbit) hout
  refine ⟨(bits error).take start, ((bits error).drop start).take 32,
    (bits error).drop (start + 32), ?_, List.length_take_le .., fun bit hbit => ?_, ?_,
    fun bit hbit => ?_⟩
  · rw [← List.drop_drop, List.take_append_drop, List.take_append_drop]
  · obtain ⟨j, hj⟩ := List.mem_iff_getElem?.mp hbit
    rw [List.getElem?_take] at hj
    split at hj
    · exact hclear j bit hj (by omega)
    · contradiction
  · obtain ⟨hstart, hend⟩ := hwithin i hi
    refine List.mem_iff_getElem?.mpr ⟨i - start, ?_⟩
    rw [List.getElem?_take_of_lt (by omega), List.getElem?_drop, Nat.add_sub_cancel' hstart]
    exact hi
  · obtain ⟨j, hj⟩ := List.mem_iff_getElem?.mp hbit
    rw [List.getElem?_drop] at hj
    exact hclear _ bit hj (by omega)

/-- A burst leaves something in an empty register. -/
theorem IsBurst.foldl_ne_zero {error : Bytes} (h : IsBurst error) :
    error.foldl bitwiseByte 0 ≠ 0 := by
  obtain ⟨front, window, back, hbits, hlength, hfront, hwindow, hback⟩ := h.split
  -- the clear bits in front leave the register empty, and those behind only shift it
  have hfold : error.foldl bitwiseByte 0 =
      bitSteps back.length (bitSteps window.length (UInt32.ofNat (value window))) := by
    rw [← foldl_bits, hbits, List.foldl_append, List.foldl_append, foldl_takeBit_clear hfront,
      bitSteps_eq_zero.mpr rfl, foldl_takeBit hlength, UInt32.zero_xor, foldl_takeBit_clear hback]
  rw [hfold, ne_eq, bitSteps_eq_zero, bitSteps_eq_zero, ← UInt32.toNat_inj,
    UInt32.toNat_ofNat_of_lt' (value_lt hlength)]
  exact fun hzero => absurd (value_eq_zero.mp hzero true hwindow) (by decide)

/-! ### Changed bytes -/

/-- A byte string with the bits of an error pattern of the same length flipped. -/
def flipped (bytes error : Bytes) : Bytes := bytes.zipWith (· ^^^ ·) error

theorem length_flipped {bytes error : Bytes} (h : error.length = bytes.length) :
    (flipped bytes error).length = bytes.length := by
  rw [flipped, List.length_zipWith, h, Nat.min_self]

theorem bitwiseByte_xor (r s : UInt32) (a b : UInt8) :
    bitwiseByte (r ^^^ s) (a ^^^ b) = bitwiseByte r a ^^^ bitwiseByte s b := by
  have hxor : r ^^^ s ^^^ (a ^^^ b).toUInt32 = r ^^^ a.toUInt32 ^^^ (s ^^^ b.toUInt32) := by
    rw [UInt8.toUInt32_xor]
    ac_rfl
  rw [bitwiseByte, hxor, bitSteps_xor]
  rfl

theorem foldl_flipped {bytes error : Bytes} (h : error.length = bytes.length) (r s : UInt32) :
    (flipped bytes error).foldl bitwiseByte (r ^^^ s) =
      bytes.foldl bitwiseByte r ^^^ error.foldl bitwiseByte s := by
  induction bytes generalizing error r s with
  | nil =>
    obtain rfl := List.length_eq_zero_iff.mp h
    rfl
  | cons b bytes ih =>
    obtain ⟨e, error, rfl⟩ := List.exists_cons_of_length_eq_add_one h
    rw [flipped, List.zipWith_cons_cons, List.foldl_cons, bitwiseByte_xor]
    exact ih (Nat.succ.inj h) _ _

/-- Flipping the bits of a burst changes the checksum. -/
theorem crc32_flipped_ne {bytes error : Bytes} (h : error.length = bytes.length)
    (hburst : IsBurst error) : crc32 (flipped bytes error) ≠ crc32 bytes := by
  have hflip := foldl_flipped h 0xFFFFFFFF 0
  rw [UInt32.xor_zero] at hflip
  rw [ne_eq, crc32_eq_bitwise, crc32_eq_bitwise, bitwise, bitwise, hflip, UInt32.not_inj]
  intro heq
  refine hburst.foldl_ne_zero ((UInt32.xor_right_inj (bytes.foldl bitwiseByte 0xFFFFFFFF)).mp ?_)
  rw [heq, UInt32.xor_zero]

theorem flipped_flipped {bytes bytes' : Bytes} (h : bytes'.length = bytes.length) :
    flipped bytes (flipped bytes bytes') = bytes' := by
  induction bytes generalizing bytes' with
  | nil => exact (List.length_eq_zero_iff.mp h).symm
  | cons b bytes ih =>
    obtain ⟨b', bytes', rfl⟩ := List.exists_cons_of_length_eq_add_one h
    have hb : b ^^^ (b ^^^ b') = b' := by rw [← UInt8.xor_assoc, UInt8.xor_self, UInt8.zero_xor]
    have hbytes := ih (Nat.succ.inj h)
    simp only [flipped, List.zipWith_cons_cons, hb] at hbytes ⊢
    rw [hbytes]

/-- Without a bit set nothing is flipped. -/
theorem flipped_clear {bytes error : Bytes} (h : error.length = bytes.length)
    (hclear : ∀ bit ∈ bits error, bit = false) : flipped bytes error = bytes := by
  induction bytes generalizing error with
  | nil =>
    obtain rfl := List.length_eq_zero_iff.mp h
    rfl
  | cons b bytes ih =>
    obtain ⟨e, error, rfl⟩ := List.exists_cons_of_length_eq_add_one h
    rw [bits_cons, List.forall_mem_append] at hclear
    have he : e = 0 := by
      rw [← UInt8.toNat_inj, ← value_byteBits, value_eq_zero.mpr hclear.1]
      rfl
    have hbytes := ih (Nat.succ.inj h) hclear.2
    simp only [flipped, List.zipWith_cons_cons, he, UInt8.xor_zero] at hbytes ⊢
    rw [hbytes]

theorem getElem?_bits_flipped {bytes bytes' : Bytes} {i : Nat}
    (h : (bits (flipped bytes bytes'))[i]? = some true) : (bits bytes')[i]? ≠ (bits bytes)[i]? := by
  rw [getElem?_bits, Option.map_eq_some_iff] at h
  obtain ⟨e, he, hbit⟩ := h
  obtain ⟨b, b', hb, hb', rfl⟩ := List.getElem?_zipWith_eq_some.mp he
  rw [UInt8.toNat_xor, Nat.testBit_xor] at hbit
  rw [getElem?_bits, getElem?_bits, hb, hb']
  simp only [Option.map_some, ne_eq, Option.some.injEq]
  rintro heq
  rw [heq, Bool.xor_self] at hbit
  contradiction

/-- Changes within 32 consecutive bits change the checksum. -/
theorem crc32_ne_of_bits {bytes bytes' : Bytes} (h : bytes'.length = bytes.length)
    (hne : bytes' ≠ bytes) (start : Nat)
    (hwithin : ∀ i : Nat, (bits bytes')[i]? ≠ (bits bytes)[i]? → start ≤ i ∧ i < start + 32) :
    crc32 bytes' ≠ crc32 bytes := by
  have hlength := length_flipped h
  have hburst : IsBurst (flipped bytes bytes') := by
    refine ⟨start, Classical.byContradiction fun hnone => hne ?_,
      fun i hi => hwithin i (getElem?_bits_flipped hi)⟩
    -- were no bit set, nothing would have been changed
    rw [← flipped_flipped h]
    refine flipped_clear hlength fun bit hbit => ?_
    obtain ⟨i, hi⟩ := List.mem_iff_getElem?.mp hbit
    cases bit with
    | false => rfl
    | true => exact absurd ⟨i, hi⟩ hnone
  rw [← flipped_flipped h]
  exact crc32_flipped_ne hlength hburst

/-- Changes within four adjacent bytes change the checksum. -/
theorem crc32_ne_of_bytes {bytes bytes' : Bytes} (h : bytes'.length = bytes.length)
    (hne : bytes' ≠ bytes) (start : Nat)
    (hwithin : ∀ i : Nat, bytes'[i]? ≠ bytes[i]? → start ≤ i ∧ i < start + 4) :
    crc32 bytes' ≠ crc32 bytes := by
  refine crc32_ne_of_bits h hne (8 * start) fun i hi => ?_
  rw [getElem?_bits, getElem?_bits] at hi
  obtain ⟨hstart, hend⟩ := hwithin (i / 8) fun heq => hi (by rw [heq])
  omega

/-- A flipped bit changes the checksum. -/
theorem crc32_ne_of_bit {bytes bytes' : Bytes} {i : Nat} (hi : i < (bits bytes).length)
    (h : bits bytes' = (bits bytes).modify i not) : crc32 bytes' ≠ crc32 bytes := by
  have hlength := congrArg List.length h
  rw [List.length_modify, length_bits, length_bits] at hlength
  refine crc32_ne_of_bits (by omega) (fun heq => ?_) i fun j hj => ?_
  · have hbit := congrArg (·[i]?) h
    simp [heq, hi] at hbit
  · rw [h, List.getElem?_modify] at hj
    split at hj
    · omega
    · simp at hj

/-- Different checksums are stored as different bytes. -/
theorem stored_inj {crc crc' : UInt32} : stored crc = stored crc' ↔ crc = crc' := by
  refine ⟨fun h => ?_, fun h => h ▸ rfl⟩
  have hcapacity : BigEndian.capacity 4 = 4294967296 := rfl
  have hdecode := congrArg BigEndian.decode h
  rw [stored, stored, BigEndian.decode_encode, BigEndian.decode_encode, hcapacity,
    Nat.mod_eq_of_lt crc.toNat_lt, Nat.mod_eq_of_lt crc'.toNat_lt] at hdecode
  exact UInt32.toNat_inj.mp hdecode

end Checksum

end BrokerWire
