import BrokerWire.Proofs.Checksum.Division
import BrokerWire.Proofs.Layout
import BrokerWire.Proofs.Splitting

/-!
# Which message sets are accepted

A record is accepted if its body is long enough for a checksum, its checksum is the one of the
bytes behind it, and these start with the fields of a message that is not compressed. Otherwise it
is refused for the first of these that fails, and it is always one or the other
(`Record.accepted_or_refused`). Main statement: `decode_iff_splits`, a set decodes to the messages
of its records if all are accepted, and fails for the first one that is refused otherwise.
-/

namespace BrokerWire

namespace Layout

/-- Bytes that end inside an array, or inside its length. -/
inductive ArrayCut : Bytes → WireError → Prop
  | size {bytes : Bytes} (h : bytes.length < 4) : ArrayCut bytes (.truncated 4 bytes.length)
  | content (size : Int32) {bytes : Bytes} (hsize : 0 < size)
    (h : bytes.length < size.toNatClampNeg) :
    ArrayCut (BigEndian.ofInt32 size ++ bytes) (.truncated size.toNatClampNeg bytes.length)

/-- There is an array in front, or the bytes end too early. -/
theorem array_or_cut (bytes : Bytes) :
    (∃ front array back, Array front array ∧ bytes = front ++ back) ∨ ∃ e, ArrayCut bytes e := by
  by_cases hlength : bytes.length < 4
  · exact .inr ⟨_, .size hlength⟩
  -- the length of the array, and what it says
  obtain ⟨size, rest, rfl⟩ := BigEndian.exists_ofInt32_append (Nat.le_of_not_lt hlength)
  by_cases habsent : size = -1
  · subst habsent
    exact .inl ⟨_, none, rest, .absent, rfl⟩
  by_cases hempty : size ≤ 0
  · exact .inl ⟨_, some [], rest, .empty size hempty habsent, rfl⟩
  have hpos : 0 < size := Int32.not_le.mp hempty
  by_cases hshort : rest.length < size.toNatClampNeg
  · exact .inr ⟨_, .content size hpos hshort⟩
  refine .inl ⟨_, _, rest.drop size.toNatClampNeg, .bytes size (rest.take size.toNatClampNeg) hpos
    (List.length_take_of_le (Nat.le_of_not_lt hshort)), ?_⟩
  rw [List.append_assoc, List.take_append_drop]

end Layout

namespace Decoder

theorem fails_uint8 : uint8.Fails [] (.truncated 1 0) := by
  have htake : (take 1).Fails [] (.truncated 1 0) := fails_take Nat.one_pos
  exact htake.bind _

theorem fails_bytes {data : Bytes} {e : WireError} (h : Layout.ArrayCut data e) :
    bytes.Fails data e := by
  cases h with
  | size h => exact ((fails_take h).bind _).bind _
  | content size hsize h =>
    have hpos : ¬size ≤ 0 := Int32.not_le.mpr hsize
    have hne : size ≠ -1 := fun h => hpos (h ▸ by decide)
    refine (reads_int32 size).bind_fails ?_
    rw [if_neg hne, if_neg hpos]
    exact (fails_take h).bind _

end Decoder

namespace MessageSet

/-! ### Fields -/

/-- The fields of a message that is not compressed. -/
inductive FieldsLayout (offset : Int64) (partitionId : Int32) : Bytes → Message → Prop
  | mk (magic attributes : UInt8) {front back : Bytes} {key value : Option Bytes}
    (hkey : Layout.Array front key) (hcodec : attributes &&& 3 = 0)
    (hvalue : Layout.Array back value) :
    FieldsLayout offset partitionId (magic :: attributes :: (front ++ back))
      { offset, partitionId, magic, attributes, key, value }

/-- Bytes without the fields of a message that is not compressed, and what is wrong with them. The
bytes of the value are not looked at if the message is compressed. -/
inductive FieldsRefused : Bytes → WireError → Prop
  | magic : FieldsRefused [] (.truncated 1 0)
  | attributes (magic : UInt8) : FieldsRefused [magic] (.truncated 1 0)
  | key (magic attributes : UInt8) {rest : Bytes} {e : WireError}
    (hkey : Layout.ArrayCut rest e) : FieldsRefused (magic :: attributes :: rest) e
  | codec (magic attributes : UInt8) {front : Bytes} {key : Option Bytes} (rest : Bytes)
    (hkey : Layout.Array front key) (hcodec : attributes &&& 3 ≠ 0) :
    FieldsRefused (magic :: attributes :: (front ++ rest)) (.unsupportedCodec (attributes &&& 3))
  | value (magic attributes : UInt8) {front rest : Bytes} {key : Option Bytes} {e : WireError}
    (hkey : Layout.Array front key) (hcodec : attributes &&& 3 = 0)
    (hvalue : Layout.ArrayCut rest e) : FieldsRefused (magic :: attributes :: (front ++ rest)) e

theorem fields_or_refused (offset : Int64) (partitionId : Int32) (bytes : Bytes) :
    (∃ front m slack, FieldsLayout offset partitionId front m ∧ bytes = front ++ slack) ∨
      ∃ e, FieldsRefused bytes e := by
  obtain _ | ⟨magic, _ | ⟨attributes, rest⟩⟩ := bytes
  · exact .inr ⟨_, .magic⟩
  · exact .inr ⟨_, .attributes magic⟩
  obtain ⟨front, key, rest, hkey, rfl⟩ | ⟨e, hcut⟩ := Layout.array_or_cut rest
  swap
  · exact .inr ⟨e, .key magic attributes hcut⟩
  by_cases hcodec : attributes &&& 3 = 0
  swap
  · exact .inr ⟨_, .codec magic attributes rest hkey hcodec⟩
  obtain ⟨back, value, slack, hvalue, rfl⟩ | ⟨e, hcut⟩ := Layout.array_or_cut rest
  · exact .inl ⟨_, _, slack, .mk magic attributes hkey hcodec hvalue, by
      rw [List.cons_append, List.cons_append, List.append_assoc]⟩
  · exact .inr ⟨e, .value magic attributes hkey hcodec hcut⟩

/-- Attribute bits that are not zero are those of a codec, or no codec's. -/
theorem ofAttributes_of_ne {attributes : UInt8} (h : attributes &&& 3 ≠ 0) :
    Codec.ofAttributes attributes = .error (attributes &&& 3) ∨
      ∃ codec, codec ≠ .none ∧ codec.id = attributes &&& 3 ∧
        Codec.ofAttributes attributes = .ok codec := by
  have hmask : attributes &&& attributeCodecMask = attributes &&& 3 := rfl
  rw [Codec.ofAttributes, hmask]
  split
  · next hzero => exact absurd (UInt8.toNat_inj.mp hzero) h
  · next hone => exact .inr ⟨.gzip, by decide, UInt8.toNat_inj.mp hone.symm, rfl⟩
  · next htwo => exact .inr ⟨.snappy, by decide, UInt8.toNat_inj.mp htwo.symm, rfl⟩
  · exact .inl rfl

/-- The fields of a message are read, whatever stands behind them. -/
theorem reads_fieldsLayout {offset : Int64} {partitionId : Int32} {bytes : Bytes} {m : Message}
    (h : FieldsLayout offset partitionId bytes m) : (fields offset partitionId).Reads bytes m := by
  obtain ⟨magic, attributes, hkey, hcodec, hvalue⟩ := h
  refine (Decoder.reads_uint8 magic).bind ((Decoder.reads_uint8 attributes).bind
    ((Decoder.recognizes_bytes.reads hkey).bind ?_))
  rw [ofAttributes_of_eq hcodec]
  exact (Decoder.recognizes_bytes.reads hvalue).bind_pure _

theorem fails_fields {offset : Int64} {partitionId : Int32} {bytes : Bytes} {e : WireError}
    (h : FieldsRefused bytes e) : (fields offset partitionId).Fails bytes e := by
  cases h with
  | magic => exact Decoder.fails_uint8.bind _
  | attributes magic => exact (Decoder.reads_uint8 magic).bind_fails (Decoder.fails_uint8.bind _)
  | key magic attributes hkey =>
    exact (Decoder.reads_uint8 magic).bind_fails
      ((Decoder.reads_uint8 attributes).bind_fails ((Decoder.fails_bytes hkey).bind _))
  | codec magic attributes rest hkey hcodec =>
    refine (Decoder.reads_uint8 magic).bind_fails ((Decoder.reads_uint8 attributes).bind_fails
      ((Decoder.recognizes_bytes.reads hkey).bind_fails ?_))
    obtain hcodec | ⟨codec, hne, hid, hcodec⟩ := ofAttributes_of_ne hcodec
    · rw [hcodec]
      exact (Decoder.fails_throw _ rest).bind _
    · rw [hcodec, ← hid]
      cases codec with
      | none => contradiction
      | gzip => exact (Decoder.fails_throw _ rest).bind _
      | snappy => exact (Decoder.fails_throw _ rest).bind _
  | value magic attributes hkey hcodec hvalue =>
    refine (Decoder.reads_uint8 magic).bind_fails ((Decoder.reads_uint8 attributes).bind_fails
      ((Decoder.recognizes_bytes.reads hkey).bind_fails ?_))
    rw [ofAttributes_of_eq hcodec]
    exact (Decoder.fails_bytes hvalue).bind _

/-! ### Records -/

/-- A record whose body is the checksum of some bytes and these bytes. -/
def Record.summed (offset : Int64) (covered : Bytes) : Record :=
  ⟨offset, Checksum.stored (Checksum.bitwise covered) ++ covered⟩

/-- The checksum is right, and behind it are the fields of the message. More bytes may follow. -/
inductive Record.Accepted (partitionId : Int32) : Record → Message → Prop
  | mk (offset : Int64) {bytes : Bytes} {m : Message} (slack : Bytes)
    (hfields : FieldsLayout offset partitionId bytes m) :
    Accepted partitionId (summed offset (bytes ++ slack)) m

/-- What is wrong with a record. -/
inductive Record.Refused : Record → WireError → Prop
  | short (offset : Int64) {body : Bytes} (h : body.length < 4) :
    Refused ⟨offset, body⟩ (.protocol (.messageTooShort offset body.length))
  | checksum (offset : Int64) {stored covered : Bytes} (hlength : stored.length = 4)
    (h : stored ≠ Checksum.stored (Checksum.bitwise covered)) :
    Refused ⟨offset, stored ++ covered⟩ (.crcMismatch offset)
  | fields (offset : Int64) {covered : Bytes} {e : WireError} (h : FieldsRefused covered e) :
    Refused (summed offset covered) e

theorem Record.accepted_or_refused (partitionId : Int32) (record : Record) :
    (∃ m, record.Accepted partitionId m) ∨ ∃ e, record.Refused e := by
  obtain ⟨offset, body⟩ := record
  by_cases hlength : body.length < 4
  · exact .inr ⟨_, .short offset hlength⟩
  obtain ⟨stored, covered, hstored, rfl⟩ :
      ∃ stored covered, stored.length = 4 ∧ body = stored ++ covered :=
    ⟨body.take 4, body.drop 4, List.length_take_of_le (Nat.le_of_not_lt hlength),
      (List.take_append_drop 4 body).symm⟩
  by_cases hsum : stored = Checksum.stored (Checksum.bitwise covered)
  swap
  · exact .inr ⟨_, .checksum offset hstored hsum⟩
  subst hsum
  obtain ⟨bytes, m, slack, hfields, rfl⟩ | ⟨e, hrefused⟩ :=
    fields_or_refused offset partitionId covered
  · exact .inl ⟨m, .mk offset slack hfields⟩
  · exact .inr ⟨e, .fields offset hrefused⟩

/-- A record with the right checksum decodes as what the checksum covers. -/
theorem Record.decode_summed (partitionId : Int32) (offset : Int64) (covered : Bytes) :
    (summed offset covered).decode partitionId =
      (MessageSet.fields offset partitionId).decode covered := by
  rw [summed, decode_stored_append (Checksum.length_stored _), Checksum.crc32_eq_bitwise,
    if_neg (absurd rfl)]

theorem Record.Accepted.decode_eq {partitionId : Int32} {record : Record} {m : Message}
    (h : record.Accepted partitionId m) : record.decode partitionId = .ok m := by
  obtain ⟨offset, slack, hfields⟩ := h
  rw [decode_summed]
  exact (reads_fieldsLayout hfields).decode slack

theorem Record.Refused.decode_eq {record : Record} {e : WireError} (h : record.Refused e)
    (partitionId : Int32) : record.decode partitionId = .error e := by
  cases h with
  | short offset h => exact if_pos h
  | checksum offset hlength h =>
    rw [decode_stored_append hlength, Checksum.crc32_eq_bitwise, if_pos h.symm]
  | fields offset h =>
    rw [decode_summed]
    exact (fails_fields h).decode

theorem Record.decode_eq_ok_iff {partitionId : Int32} {record : Record} {m : Message} :
    record.decode partitionId = .ok m ↔ record.Accepted partitionId m := by
  refine ⟨fun h => ?_, Accepted.decode_eq⟩
  obtain ⟨m', haccepted⟩ | ⟨e, hrefused⟩ := accepted_or_refused partitionId record
  · rw [haccepted.decode_eq] at h
    cases h
    exact haccepted
  · rw [hrefused.decode_eq] at h
    contradiction

theorem Record.decode_eq_error_iff {partitionId : Int32} {record : Record} {e : WireError} :
    record.decode partitionId = .error e ↔ record.Refused e := by
  refine ⟨fun h => ?_, fun h => h.decode_eq partitionId⟩
  obtain ⟨m, haccepted⟩ | ⟨e', hrefused⟩ := accepted_or_refused partitionId record
  · rw [haccepted.decode_eq] at h
    contradiction
  · rw [hrefused.decode_eq] at h
    cases h
    exact hrefused

/-! ### Sets -/

/-- Every byte string is split into records and a rest in one way, and it decodes to the messages
of the records if they are all accepted. Otherwise it fails for the first one that is refused. -/
theorem decode_iff_splits (set : Bytes) (partitionId : Int32) :
    ∃ records stop,
      (∀ records' stop', Splits set records' stop' ↔ records' = records ∧ stop' = stop) ∧
      (∀ messages, decode set partitionId = .ok messages ↔
        List.Forall₂ (Record.Accepted partitionId) records messages) ∧
      ∀ e, decode set partitionId = .error e ↔
        ∃ before record after, records = before ++ record :: after ∧
          (∀ r ∈ before, ∃ m, r.Accepted partitionId m) ∧ record.Refused e := by
  obtain ⟨stop, hset⟩ := splits_records set
  refine ⟨records set, stop, fun records' stop' => ⟨hset.unique, ?_⟩, fun messages => ?_,
    fun e => ?_⟩
  · rintro ⟨rfl, rfl⟩
    exact hset
  · simp only [hset.decode_eq_ok_iff, Record.decode_eq_ok_iff]
  · simp only [hset.decode_eq_error_iff, Record.decode_eq_ok_iff, Record.decode_eq_error_iff]

end MessageSet

end BrokerWire
