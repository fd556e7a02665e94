import BrokerWire.Cursor
import BrokerWire.Proofs.Emission

/-!
# What decoders read

`Decoder.Reads d bytes a` says that `d` takes exactly `bytes` off the front of whatever it is given
and makes `a` of them. What follows those bytes, and what came before them, plays no part. The
primitives read back what the encoders write, with one exception: an empty text comes back as no
text (`stated`).
-/

namespace BrokerWire

/-- The least length that a signed 32-bit field cannot tell. -/
def lengthLimit : Nat := 2147483648

/-- A length that a signed 32-bit field can tell is told by it. -/
theorem toNatClampNeg_ofNat {n : Nat} (h : n < lengthLimit) :
    (Int32.ofNat n).toNatClampNeg = n :=
  Int32.toNatClampNeg_ofNat_of_lt h

/-- What is left of a text that may be absent when it is written and read back: the empty text and
no text are written alike. -/
def stated (text : Option String) : Option String := text.filter (· ≠ "")

theorem stated_some (text : String) :
    stated (some text) = if text = "" then none else some text := by
  by_cases h : text = "" <;> simp [stated, Option.filter, h]

namespace Decoder

/-- The decoder takes exactly these bytes off whatever starts with them, and gives this value. -/
def Reads (d : Decoder α) (bytes : Bytes) (a : α) : Prop :=
  ∀ buffer position rest,
    d ⟨buffer, position, bytes ++ rest⟩ = .ok a ⟨buffer, position + bytes.length, rest⟩

/-- Reading a byte string to its last byte. -/
theorem Reads.run {d : Decoder α} {bytes : Bytes} {a : α} (h : d.Reads bytes a) :
    d.run (.ofBytes bytes) = .ok a ⟨bytes, bytes.length, []⟩ := by
  have hrun := h bytes 0 []
  rw [List.append_nil, Nat.zero_add] at hrun
  exact hrun

/-- Bytes behind those that are read are left alone. -/
theorem Reads.decode {d : Decoder α} {bytes : Bytes} {a : α} (h : d.Reads bytes a)
    (slack : Bytes) : d.decode (bytes ++ slack) = .ok a := by
  unfold Decoder.decode EStateM.run Cursor.ofBytes
  rw [h]

theorem reads_pure (a : α) : (pure a : Decoder α).Reads [] a := fun _ _ _ => rfl

theorem Reads.bind {d : Decoder α} {f : α → Decoder β} {bytes bytes' : Bytes} {a : α} {b : β}
    (h : d.Reads bytes a) (h' : (f a).Reads bytes' b) : (d >>= f).Reads (bytes ++ bytes') b := by
  intro buffer position rest
  change EStateM.bind d f _ = _
  unfold EStateM.bind
  rw [List.append_assoc, h]
  change f a _ = _
  rw [h', List.length_append, Nat.add_assoc]

theorem Reads.map {d : Decoder α} {bytes : Bytes} {a : α} (h : d.Reads bytes a) (f : α → β) :
    (f <$> d).Reads bytes (f a) := by
  intro buffer position rest
  change EStateM.map f d _ = _
  unfold EStateM.map
  rw [h]

/-- Whatever the last step makes of a value without reading on. -/
theorem Reads.bind_pure {d : Decoder α} {bytes : Bytes} {a : α} (h : d.Reads bytes a)
    (f : α → β) : (d >>= fun a => pure (f a)).Reads bytes (f a) := by
  have hbind := h.bind (f := fun a => pure (f a)) (reads_pure (f a))
  rwa [List.append_nil] at hbind

/-! ### Integers and counts -/

theorem reads_take (bytes : Bytes) : (take bytes.length).Reads bytes bytes :=
  fun buffer position rest => take_append bytes rest buffer position

theorem reads_uint8 (b : UInt8) : uint8.Reads [b] b := by
  have h := (reads_take [b]).bind_pure fun bytes => UInt8.ofNat (BigEndian.decode bytes)
  have hb : UInt8.ofNat (BigEndian.decode [b]) = b := by
    simp [BigEndian.decode]
  rwa [hb] at h

theorem reads_int16 (x : Int16) : int16.Reads (BigEndian.ofInt16 x) x := by
  have h := (reads_take (BigEndian.ofInt16 x)).bind_pure BigEndian.toInt16
  rwa [BigEndian.length_ofInt16, BigEndian.toInt16_ofInt16] at h

theorem reads_int32 (x : Int32) : int32.Reads (BigEndian.ofInt32 x) x := by
  have h := (reads_take (BigEndian.ofInt32 x)).bind_pure BigEndian.toInt32
  rwa [BigEndian.length_ofInt32, BigEndian.toInt32_ofInt32] at h

theorem reads_int64 (x : Int64) : int64.Reads (BigEndian.ofInt64 x) x := by
  have h := (reads_take (BigEndian.ofInt64 x)).bind_pure BigEndian.toInt64
  rwa [BigEndian.length_ofInt64, BigEndian.toInt64_ofInt64] at h

theorem reads_count {n : Nat} (h : n < lengthLimit) :
    count.Reads (BigEndian.ofInt32 (Int32.ofNat n)) n := by
  have hcount := (reads_int32 (Int32.ofNat n)).bind_pure Int32.toNatClampNeg
  rwa [toNatClampNeg_ofNat h] at hcount

/-! ### Texts and byte strings -/

theorem encode_eq_nil {text : String} : Utf8.encode text = [] ↔ text = "" := by
  refine ⟨fun h => ?_, fun h => h ▸ rfl⟩
  have hdecode := Utf8.decode_encode text
  rw [h, ← show Utf8.encode "" = [] from rfl, Utf8.decode_encode] at hdecode
  exact (Except.ok.inj hdecode).symm

/-- Reading a text whose length is positive. -/
theorem reads_string_of_pos {text : String} {n : Nat} (hlength : (Utf8.encode text).length = n)
    (hpos : 0 < n) (hmax : n ≤ Int16.maxValue.toNatClampNeg) :
    string.Reads (BigEndian.ofInt16 (Int16.ofNat n) ++ Utf8.encode text) (some text) := by
  have hlt : n < 2 ^ 15 := Nat.lt_succ_of_le hmax
  have hsize : (Int16.ofNat n).toNatClampNeg = n := Int16.toNatClampNeg_ofNat_of_lt hlt
  have hsizePos : ¬Int16.ofNat n ≤ 0 := by
    rw [← Int16.toNatClampNeg_eq_zero_iff, hsize]
    omega
  have hsizeNe : Int16.ofNat n ≠ -1 := fun h => hsizePos (h ▸ by decide)
  refine (reads_int16 _).bind fun buffer position rest => ?_
  rw [if_neg hsizeNe, if_neg hsizePos, hsize, ← hlength]
  change EStateM.bind (take _) _ _ = _
  unfold EStateM.bind
  rw [take_append]
  simp only [Utf8.decode_encode]
  rfl

/-- A text that can be written reads back, unless it is empty. -/
theorem reads_string {text : Option String} (h : (Emission.string text).failure = none) :
    string.Reads (Emission.string text).bytes (stated text) := by
  simp only [Emission.string] at h ⊢
  by_cases hmax : (Utf8.encode (text.getD "")).length > Int16.maxValue.toNatClampNeg
  · rw [if_pos hmax] at h
    contradiction
  -- an empty text is written like no text at all
  by_cases hempty : (Utf8.encode (text.getD "")).isEmpty
  · have hstated : stated text = none := by
      have htext : text.getD "" = "" := encode_eq_nil.mp (List.isEmpty_iff.mp hempty)
      cases text with
      | none => rfl
      | some text => exact (stated_some text).trans (if_pos htext)
    rw [if_neg hmax, if_pos hempty, hstated]
    exact (reads_int16 (-1)).bind (f := fun size => _) (reads_pure none)
  · obtain ⟨text, rfl⟩ : ∃ t, text = some t := by
      cases text with
      | none => exact absurd rfl hempty
      | some text => exact ⟨text, rfl⟩
    have hne : Utf8.encode text ≠ [] := fun h => hempty (List.isEmpty_iff.mpr h)
    have hstated : stated (some text) = some text := by
      rw [stated_some, if_neg (mt encode_eq_nil.mpr hne)]
    rw [if_neg hmax, if_neg hempty, hstated]
    exact reads_string_of_pos rfl (List.length_pos_iff.mpr hne) (Nat.le_of_not_lt hmax)

/-- Reading a name, for which an empty text and no text are the same. -/
theorem reads_name {text : String} (h : (Emission.string (some text)).failure = none) :
    name.Reads (Emission.string (some text)).bytes text := by
  have hname := (reads_string h).bind_pure (·.getD "")
  have hstated : (stated (some text)).getD "" = text := by
    rw [stated_some]
    split
    · next htext => exact htext.symm
    · rfl
  rwa [hstated] at hname

/-- Bytes that can be written read back, absent, empty or not. -/
theorem reads_bytes {array : Option Bytes} (h : (Emission.array array).failure = none) :
    bytes.Reads (Emission.array array).bytes array := by
  cases array with
  | none => exact (reads_int32 (-1)).bind (f := fun size => _) (reads_pure none)
  | some array =>
    simp only [Emission.array] at h ⊢
    by_cases hmax : array.length > Int32.maxValue.toNatClampNeg
    · rw [if_pos hmax] at h
      contradiction
    have hlt : array.length < lengthLimit := Nat.lt_succ_of_le (Nat.le_of_not_lt hmax)
    have hsize := toNatClampNeg_ofNat hlt
    have hne : Int32.ofNat array.length ≠ -1 := fun h => by
      have hle : 0 ≤ Int32.ofNat array.length := Int32.zero_le_ofNat_of_lt hlt
      rw [h] at hle
      exact absurd hle (by decide)
    rw [if_neg hmax]
    refine (reads_int32 _).bind ?_
    rw [if_neg hne]
    -- for empty bytes nothing is taken, and still they are there
    by_cases hzero : Int32.ofNat array.length ≤ 0
    · have hnil : array = [] := by
        rw [← Int32.toNatClampNeg_eq_zero_iff, hsize] at hzero
        exact List.length_eq_zero_iff.mp hzero
      rw [if_pos hzero, hnil]
      exact reads_pure (some [])
    · rw [if_neg hzero, hsize]
      exact (reads_take array).bind_pure some

/-! ### Lists -/

theorem reads_repeated {item : Decoder α} {f : β → Bytes} {g : β → α} {bs : List β}
    (h : ∀ b ∈ bs, item.Reads (f b) (g b)) :
    (repeated item bs.length).Reads (bs.flatMap f) (bs.map g) := by
  induction bs with
  | nil => exact reads_pure []
  | cons b bs ih =>
    obtain ⟨hb, hbs⟩ := List.forall_mem_cons.mp h
    rw [List.length_cons, repeated_succ]
    exact hb.bind ((ih hbs).map (g b :: ·))

/-! ### Failures -/

/-- There is no reading a value off these bytes, and this is why. -/
def Fails (d : Decoder α) (bytes : Bytes) (e : WireError) : Prop :=
  ∀ buffer position, ∃ c, d ⟨buffer, position, bytes⟩ = .error e c

theorem Fails.decode {d : Decoder α} {bytes : Bytes} {e : WireError} (h : d.Fails bytes e) :
    d.decode bytes = .error e := by
  obtain ⟨c, hc⟩ := h bytes 0
  unfold Decoder.decode EStateM.run Cursor.ofBytes
  rw [hc]

theorem fails_throw (e : WireError) (bytes : Bytes) : (throw e : Decoder α).Fails bytes e :=
  fun _ _ => ⟨_, rfl⟩

theorem fails_take {n : Nat} {bytes : Bytes} (h : bytes.length < n) :
    (take n).Fails bytes (.truncated n bytes.length) :=
  fun buffer position => ⟨⟨buffer, position, bytes⟩, take_short h⟩

theorem Fails.bind {d : Decoder α} {bytes : Bytes} {e : WireError} (h : d.Fails bytes e)
    (f : α → Decoder β) : (d >>= f).Fails bytes e := by
  intro buffer position
  obtain ⟨c, hc⟩ := h buffer position
  refine ⟨c, ?_⟩
  change EStateM.bind d f _ = _
  unfold EStateM.bind
  rw [hc]

/-- What stands behind a value that is read cannot be read. -/
theorem Reads.bind_fails {d : Decoder α} {f : α → Decoder β} {front back : Bytes} {a : α}
    {e : WireError} (h : d.Reads front a) (h' : (f a).Fails back e) :
    (d >>= f).Fails (front ++ back) e := by
  intro buffer position
  obtain ⟨c, hc⟩ := h' buffer (position + front.length)
  refine ⟨c, ?_⟩
  change EStateM.bind d f _ = _
  unfold EStateM.bind
  rw [h]
  exact hc

end Decoder

end BrokerWire
