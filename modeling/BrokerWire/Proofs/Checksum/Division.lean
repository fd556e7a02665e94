import BrokerWire.Checksum

/-!
# The checksum as a remainder

The register of a CRC is divided one bit at a time, and a division step goes through exclusive or
(`bitStep_xor`) and loses nothing (`bitStep_eq_zero`). The first property is what tables rest on: a
word is divided byte by byte, each byte on its own, and the parts are put together again. So eight
bytes at a time come to the same as one bit at a time (`crc32_eq_bitwise`).
-/

namespace BrokerWire

namespace Checksum

/-! ### Dividing bits out -/

theorem and_one_eq_one {r : UInt32} : r &&& 1 = 1 ↔ r.toNat % 2 = 1 := by
  rw [← UInt32.toNat_inj, UInt32.toNat_and]
  simp

/-- A division step goes through exclusive or. -/
theorem bitStep_xor (a b : UInt32) : bitStep (a ^^^ b) = bitStep a ^^^ bitStep b := by
  have hodd : (a ^^^ b) &&& 1 = 1 ↔ ¬(a &&& 1 = 1 ↔ b &&& 1 = 1) := by
    simp only [and_one_eq_one, UInt32.toNat_xor, Nat.xor_mod_two_eq_one]
  simp only [bitStep, hodd, UInt32.shiftRight_xor]
  by_cases ha : a &&& 1 = 1 <;> by_cases hb : b &&& 1 = 1
  · -- the polynomial comes in twice and cancels
    have hcancel : (a >>> 1) ^^^ polynomial ^^^ ((b >>> 1) ^^^ polynomial) =
        (a >>> 1) ^^^ (b >>> 1) ^^^ (polynomial ^^^ polynomial) := by ac_rfl
    simp [ha, hb, hcancel]
  · simp [ha, hb]
    ac_rfl
  · simp [ha, hb]
    ac_rfl
  · simp [ha, hb]

/-- A division step on an even register halves it. -/
theorem toNat_bitStep_of_even {r : UInt32} (h : r.toNat % 2 = 0) :
    (bitStep r).toNat = r.toNat / 2 := by
  have hbit : ¬r &&& 1 = 1 := fun hone => by
    rw [and_one_eq_one] at hone
    omega
  rw [bitStep, if_neg hbit, UInt32.toNat_shiftRight]
  simp [Nat.shiftRight_eq_div_pow]

/-- No bit is lost in a division step. The polynomial has its highest bit set, so that it shows in
the step of an odd register. -/
theorem bitStep_eq_zero {r : UInt32} : bitStep r = 0 ↔ r = 0 := by
  refine ⟨fun h => ?_, fun h => by rw [h]; decide⟩
  by_cases hodd : r.toNat % 2 = 1
  · rw [bitStep, if_pos (and_one_eq_one.mpr hodd), UInt32.xor_eq_zero_iff, ← UInt32.toNat_inj,
      UInt32.toNat_shiftRight] at h
    have hlt := r.toNat_lt
    simp [Nat.shiftRight_eq_div_pow, polynomial] at h
    omega
  · have hhalf := toNat_bitStep_of_even (r := r) (by omega)
    rw [h] at hhalf
    rw [← UInt32.toNat_inj]
    simp at hhalf ⊢
    omega

theorem bitSteps_xor (n : Nat) (a b : UInt32) :
    bitSteps n (a ^^^ b) = bitSteps n a ^^^ bitSteps n b := by
  induction n generalizing a b with
  | zero => rfl
  | succ n ih => rw [bitSteps, bitStep_xor, ih, bitSteps, bitSteps]

theorem bitSteps_eq_zero {n : Nat} {r : UInt32} : bitSteps n r = 0 ↔ r = 0 := by
  induction n generalizing r with
  | zero => exact Iff.rfl
  | succ n ih => rw [bitSteps, ih, bitStep_eq_zero]

theorem bitSteps_add (m n : Nat) (r : UInt32) :
    bitSteps (m + n) r = bitSteps n (bitSteps m r) := by
  induction m generalizing r with
  | zero => rw [Nat.zero_add, bitSteps]
  | succ m ih => rw [Nat.succ_add, bitSteps, ih, bitSteps]

/-- A register whose `n` lowest bits are clear loses only these in `n` steps. -/
theorem toNat_bitSteps_of_eq_shift {n k : Nat} {r : UInt32} (h : r.toNat = k <<< n) :
    (bitSteps n r).toNat = k := by
  induction n generalizing r with
  | zero => exact h
  | succ n ih =>
    rw [Nat.shiftLeft_succ] at h
    refine ih ?_
    rw [toNat_bitStep_of_even (by omega)]
    omega

/-! ### Dividing bytes out -/

/-- A word is its lowest byte and the others. -/
theorem toUInt8_xor_shift (w : UInt32) : w.toUInt8.toUInt32 ^^^ ((w >>> 8) <<< 8) = w := by
  apply UInt32.toBitVec_inj.mp
  apply BitVec.eq_of_getLsbD_eq
  intro i hi
  simp only [UInt32.toBitVec_xor, UInt8.toBitVec_toUInt32, UInt32.toBitVec_toUInt8,
    BitVec.getLsbD_xor, BitVec.getLsbD_setWidth, UInt32.toBitVec_shiftLeft,
    UInt32.toBitVec_shiftRight]
  by_cases h : i < 8
  · simp [h, hi]
  · have hback : 8 + (i - 8) = i := by omega
    simp [h, hi, hback]

/-- Eight steps on a register whose lowest byte is clear. -/
theorem bitSteps_shift (w : UInt32) : bitSteps 8 ((w >>> 8) <<< 8) = w >>> 8 := by
  have hlt := w.toNat_lt
  rw [← UInt32.toNat_inj]
  refine toNat_bitSteps_of_eq_shift ?_
  simp only [UInt32.toNat_shiftLeft, UInt32.toNat_shiftRight]
  simp [Nat.shiftRight_eq_div_pow, Nat.shiftLeft_eq]
  omega

/-- A word is taken into the register by its lowest byte, and then by the others. -/
theorem bitSteps_xor_word (n : Nat) (r w : UInt32) :
    bitSteps (8 + n) (r ^^^ w) = bitSteps n (bitwiseByte r w.toUInt8 ^^^ (w >>> 8)) := by
  have hsplit : r ^^^ w = r ^^^ w.toUInt8.toUInt32 ^^^ ((w >>> 8) <<< 8) := by
    rw [UInt32.xor_assoc, toUInt8_xor_shift]
  rw [bitSteps_add, hsplit, bitSteps_xor, bitSteps_shift, bitwiseByte]

/-- The steps of a word are those of its lowest byte and, eight fewer, of the others. -/
theorem bitSteps_word (n : Nat) (w : UInt32) :
    bitSteps (8 + n) w = bitSteps (8 + n) w.toUInt8.toUInt32 ^^^ bitSteps n (w >>> 8) := by
  have h := bitSteps_xor_word n 0 w
  rw [UInt32.zero_xor, bitSteps_xor, bitwiseByte, UInt32.zero_xor, ← bitSteps_add] at h
  exact h

theorem toUInt8_littleEndian (a b c d : UInt8) : (littleEndian a b c d).toUInt8 = a := by
  apply UInt8.toBitVec_inj.mp
  apply BitVec.eq_of_getLsbD_eq
  intro i hi
  simp only [littleEndian, UInt32.toBitVec_toUInt8, UInt32.toBitVec_or, UInt32.toBitVec_shiftLeft,
    UInt8.toBitVec_toUInt32]
  simp [hi]

theorem shift_littleEndian (a b c d : UInt8) :
    littleEndian a b c d >>> 8 = littleEndian b c d 0 := by
  apply UInt32.toBitVec_inj.mp
  apply BitVec.eq_of_getLsbD_eq
  intro i hi
  have hc : 8 + i - 16 = i - 8 := by omega
  have hd : 8 + i - 24 = i - 16 := by omega
  by_cases h : i < 24
  · have hb8 : ¬8 + i < 8 := by omega
    have hc8 : 8 + i < 16 ↔ i < 8 := by omega
    have hd8 : 8 + i < 24 ↔ i < 16 := by omega
    have hlt : 8 + i < 32 := by omega
    simp [littleEndian, hi, hc, hd, hb8, hc8, hd8, hlt]
  · -- all four bytes end below these bits
    have hge : ¬8 + i < 32 := by omega
    have hb0 : b.toBitVec.getLsbD i = false := BitVec.getLsbD_of_ge _ _ (by omega)
    have hc0 : c.toBitVec.getLsbD (i - 8) = false := BitVec.getLsbD_of_ge _ _ (by omega)
    have hd0 : d.toBitVec.getLsbD (i - 16) = false := BitVec.getLsbD_of_ge _ _ (by omega)
    simp [littleEndian, hi, hge, hb0, hc0, hd0]

/-- Four bytes are taken into the register as one word. -/
theorem foldl_bitwiseByte_four (r : UInt32) (a b c d : UInt8) :
    [a, b, c, d].foldl bitwiseByte r = bitSteps 32 (r ^^^ littleEndian a b c d) := by
  have hzero : littleEndian 0 0 0 0 = 0 := by decide
  rw [bitSteps_xor_word 24, bitSteps_xor_word 16, bitSteps_xor_word 8, bitSteps_xor_word 0]
  simp only [shift_littleEndian, toUInt8_littleEndian, hzero, UInt32.xor_zero]
  rfl

/-! ### Tables -/

theorem Table.entry_eq (table : Table) {b : UInt8} (h : b.toNat < 256) :
    table.entry b = table[b.toNat] := rfl

theorem entry_baseTable (b : UInt8) : baseTable.entry b = bitSteps 8 b.toUInt32 := by
  rw [Table.entry_eq _ b.toNat_lt, baseTable, Vector.getElem_ofFn]
  simp

theorem entry_nextTable {table : Table} {n : Nat}
    (h : ∀ b, table.entry b = bitSteps n b.toUInt32) (b : UInt8) :
    (nextTable table).entry b = bitSteps (n + 8) b.toUInt32 := by
  have hmap : (nextTable table).entry b =
      baseTable.entry (table.entry b).toUInt8 ^^^ (table.entry b >>> 8) := by
    rw [Table.entry_eq _ b.toNat_lt, nextTable, Vector.getElem_map, ← Table.entry_eq]
  rw [hmap, entry_baseTable, h, bitSteps_add]
  exact (bitSteps_word 0 _).symm

/-- The table for a byte that `k` bytes follow. -/
def tableAt : Nat → Table
  | 0 => baseTable
  | k + 1 => nextTable (tableAt k)

theorem entry_tableAt (k : Nat) (b : UInt8) :
    (tableAt k).entry b = bitSteps (8 * k + 8) b.toUInt32 := by
  induction k generalizing b with
  | zero => exact entry_baseTable b
  | succ k ih => exact entry_nextTable ih b

theorem tableByte_eq (r : UInt32) (b : UInt8) : tableByte r b = bitwiseByte r b := by
  have hshift : (r ^^^ b.toUInt32) >>> 8 = r >>> 8 := by
    have hb : b.toUInt32 >>> 8 = 0 := by
      have hlt := b.toNat_lt
      rw [← UInt32.toNat_inj]
      simp [Nat.shiftRight_eq_div_pow]
      omega
    rw [UInt32.shiftRight_xor, hb, UInt32.xor_zero]
  have hbyte : (r ^^^ b.toUInt32).toUInt8 = r.toUInt8 ^^^ b := by simp
  change (r >>> 8) ^^^ (tableAt 0).entry (r.toUInt8 ^^^ b) = bitSteps 8 (r ^^^ b.toUInt32)
  rw [bitSteps_word 0, hshift, hbyte, entry_tableAt, UInt32.xor_comm]
  rfl

/-- The steps of a word are those of its bytes, each with as many bytes behind it as there are. -/
theorem bitSteps_bytes (n : Nat) (w : UInt32) :
    bitSteps (32 + n) w = bitSteps (32 + n) w.toUInt8.toUInt32 ^^^
      bitSteps (24 + n) (w >>> 8).toUInt8.toUInt32 ^^^
      bitSteps (16 + n) (w >>> 16).toUInt8.toUInt32 ^^^
      bitSteps (8 + n) (w >>> 24).toUInt8.toUInt32 := by
  have h16 : w >>> 8 >>> 8 = w >>> 16 := by
    rw [← UInt32.toNat_inj]
    simp [← Nat.shiftRight_add]
  have h24 : w >>> 16 >>> 8 = w >>> 24 := by
    rw [← UInt32.toNat_inj]
    simp [← Nat.shiftRight_add]
  have h32 : w >>> 24 >>> 8 = 0 := by
    have hlt := w.toNat_lt
    rw [← UInt32.toNat_inj]
    simp [Nat.shiftRight_eq_div_pow]
    omega
  have e32 : 32 + n = 8 + (24 + n) := by omega
  have e24 : 24 + n = 8 + (16 + n) := by omega
  have e16 : 16 + n = 8 + (8 + n) := by omega
  rw [e32, bitSteps_word, e24, bitSteps_word _ (w >>> 8), h16, e16, bitSteps_word _ (w >>> 16), h24,
    bitSteps_word _ (w >>> 24), h32, bitSteps_eq_zero.mpr rfl, UInt32.xor_zero, UInt32.xor_assoc,
    UInt32.xor_assoc]

/-- Eight bytes are taken into the register as two words. -/
theorem tableBlock_eq (r low high : UInt32) :
    tableBlock r low high = bitSteps 32 (bitSteps 32 (r ^^^ low) ^^^ high) := by
  have hhigh : bitSteps 32 high = _ := bitSteps_bytes 0 high
  rw [bitSteps_xor, ← bitSteps_add, bitSteps_bytes 32, hhigh]
  change (tableAt 7).entry (r ^^^ low).toUInt8 ^^^ (tableAt 6).entry ((r ^^^ low) >>> 8).toUInt8 ^^^
    (tableAt 5).entry ((r ^^^ low) >>> 16).toUInt8 ^^^
    (tableAt 4).entry ((r ^^^ low) >>> 24).toUInt8 ^^^
    (tableAt 3).entry high.toUInt8 ^^^ (tableAt 2).entry (high >>> 8).toUInt8 ^^^
    (tableAt 1).entry (high >>> 16).toUInt8 ^^^ (tableAt 0).entry (high >>> 24).toUInt8 = _
  simp only [entry_tableAt, Nat.reduceMul, Nat.reduceAdd, UInt32.xor_assoc]

/-- Taking bytes eight at a time comes to the same as taking them singly, bit by bit. -/
theorem sliced_eq (r : UInt32) (bytes : Bytes) : sliced r bytes = bytes.foldl bitwiseByte r := by
  induction r, bytes using sliced.induct with
  | case1 r a b c d e f g h rest ih =>
    have hblock : tableBlock r (littleEndian a b c d) (littleEndian e f g h) =
        [e, f, g, h].foldl bitwiseByte ([a, b, c, d].foldl bitwiseByte r) := by
      rw [tableBlock_eq, foldl_bitwiseByte_four, foldl_bitwiseByte_four]
    rw [sliced, ih, hblock]
    rfl
  | case2 r rest hshort =>
    rw [sliced]
    · exact congrArg (fun step => rest.foldl step r) (funext fun r => funext (tableByte_eq r))
    · exact hshort

/-- The checksum is what its definition says. -/
theorem crc32_eq_bitwise (bytes : Bytes) : crc32 bytes = bitwise bytes := by
  unfold crc32
  split
  · next h => rw [List.isEmpty_iff.mp h, bitwise_nil]
  · rw [sliced_eq, bitwise]

/-! ### Stored checksums -/

/-- A checksum is stored with its highest byte first. -/
theorem stored_eq (crc : UInt32) : stored crc =
    [(crc >>> 24).toUInt8, (crc >>> 16).toUInt8, (crc >>> 8).toUInt8, crc.toUInt8] := by
  have hshift : ∀ k : UInt32, (crc >>> k).toUInt8 =
      UInt8.ofNat (crc.toNat / 2 ^ (k.toNat % 32)) := fun k => by
    rw [← Nat.shiftRight_eq_div_pow, ← UInt32.toNat_shiftRight]
    rfl
  simp [stored, BigEndian.encode, BigEndian.capacity, hshift]

/-- Table by table, eight bytes at a time and the rest singly, the checksum of any bytes is the one
of the definition. It is 0 for no bytes at all, and is stored exactly if there are some. -/
theorem crc32_and_hash_eq_bitwise (bytes : Bytes) :
    crc32 bytes = bitwise bytes ∧ crc32 [] = 0 ∧
      ∀ hash, hash? bytes = some hash ↔ bytes ≠ [] ∧
        hash = [(bitwise bytes >>> 24).toUInt8, (bitwise bytes >>> 16).toUInt8,
          (bitwise bytes >>> 8).toUInt8, (bitwise bytes).toUInt8] := by
  refine ⟨crc32_eq_bitwise bytes, rfl, fun hash => ?_⟩
  rw [hash?, crc32_eq_bitwise, stored_eq]
  split
  · next h => simp [List.isEmpty_iff.mp h]
  · next h =>
    have hne : bytes ≠ [] := fun hnil => h (List.isEmpty_iff.mpr hnil)
    rw [Option.some.injEq, and_iff_right hne, eq_comm]

end Checksum

end BrokerWire
