import BrokerWire.MessageSet
import BrokerWire.Proofs.Reading

/-!
# Message sets, record by record

`Record.bytes` spells a record and `Record.ofMessage` is the record of a message. A set that is
written is the concatenation of the spelled records of its messages (`emits_encode`), and a record
in front of any bytes is split off them again (`records_append`), so a set decodes record by record
whatever follows it. Main statement: `decode_assignOffsets_append`, messages survive being written,
given their offsets by a broker, and read from among other records.
-/

namespace BrokerWire

namespace MessageSet

/-- A record as bytes. -/
def Record.bytes (record : Record) : Bytes :=
  BigEndian.ofInt64 record.offset ++
    (BigEndian.ofInt32 (Int32.ofNat record.body.length) ++ record.body)

/-- The fields of a message that its checksum covers. -/
def covered (m : Message) : Bytes :=
  [m.magic] ++ ([m.attributes] ++ ((Emission.array m.key).bytes ++ (Emission.array m.value).bytes))

/-- The body of a message's record. -/
def bodyOf (m : Message) : Bytes := Checksum.stored (Checksum.crc32 (covered m)) ++ covered m

/-- The record of a message before the broker gives it an offset. -/
def Record.ofMessage (m : Message) : Record := ⟨0, bodyOf m⟩

/-- The number of bytes in a byte string that may be absent. -/
def size (bytes : Option Bytes) : Nat := (bytes.getD []).length

/-- Whether the body of a message's record is short enough for the size field: it has the checksum,
two bytes, and a key and a value behind their lengths. -/
def Fits (m : Message) : Prop := 14 + size m.key + size m.value < lengthLimit

/-- Writes offsets over those of the first records of a set, record by record, and leaves every
other byte as it is. -/
def assignOffsets : List Int64 → Bytes → Bytes
  | [], set => set
  | offset :: offsets, set =>
    let behind := 4 + (BigEndian.toInt32 ((set.drop 8).take 4)).toNatClampNeg
    BigEndian.ofInt64 offset ++
      ((set.drop 8).take behind ++ assignOffsets offsets (set.drop (8 + behind)))

/-! ### Writing -/

/-- A byte string can be written unless it is too long. -/
theorem failure_array {bytes : Option Bytes} :
    (Emission.array bytes).failure = none ↔ size bytes < lengthLimit := by
  cases bytes with
  | none => exact ⟨fun _ => by decide, fun _ => rfl⟩
  | some bytes =>
    by_cases hmax : bytes.length > Int32.maxValue.toNatClampNeg
    · have hlt : ¬bytes.length < lengthLimit := Nat.not_lt_of_le (Nat.succ_le_of_lt hmax)
      simp [Emission.array, size, hmax, hlt]
    · have hlt : bytes.length < lengthLimit := Nat.lt_succ_of_le (Nat.le_of_not_lt hmax)
      simp [Emission.array, size, if_neg hmax, hlt]

theorem length_array {bytes : Option Bytes} (h : (Emission.array bytes).failure = none) :
    (Emission.array bytes).bytes.length = 4 + size bytes := by
  cases bytes with
  | none => rfl
  | some bytes =>
    have hmax : ¬bytes.length > Int32.maxValue.toNatClampNeg :=
      Nat.not_lt_of_le (Nat.le_of_lt_succ (failure_array.mp h))
    simp [Emission.array, size, if_neg hmax]

theorem Fits.key {m : Message} (h : Fits m) : (Emission.array m.key).failure = none :=
  failure_array.mpr (by unfold Fits at h; omega)

theorem Fits.value {m : Message} (h : Fits m) : (Emission.array m.value).failure = none :=
  failure_array.mpr (by unfold Fits at h; omega)

/-- The body of a record is as long as its message makes it. -/
theorem length_bodyOf {m : Message} (hkey : (Emission.array m.key).failure = none)
    (hvalue : (Emission.array m.value).failure = none) :
    (bodyOf m).length = 14 + size m.key + size m.value := by
  simp only [bodyOf, covered, List.length_append, Checksum.length_stored, length_array hkey,
    length_array hvalue, List.length_singleton]
  omega

theorem Fits.length_ofMessage {m : Message} (h : Fits m) :
    (Record.ofMessage m).body.length < lengthLimit := by
  rw [Record.ofMessage, length_bodyOf h.key h.value]
  exact h

/-- What is written for the fields of a message. -/
def coveredEmission (m : Message) : Emission :=
  (⟨[m.magic], none⟩ : Emission).andThen ((⟨[m.attributes], none⟩ : Emission).andThen
    ((Emission.array m.key).andThen (Emission.array m.value)))

/-- What is written for a message, whether it fits or not. -/
def messageEmission (m : Message) : Emission :=
  (⟨BigEndian.ofInt64 0, none⟩ : Emission).andThen (coveredEmission m).checksummed.delimited

theorem emits_encodeMessage (m : Message) : (encodeMessage m).Emits (messageEmission m) :=
  (Encoder.emits_raw _).bind (((Encoder.emits_raw [m.magic]).bind
    ((Encoder.emits_raw [m.attributes]).bind ((Encoder.emits_bytes m.key).bind
      (Encoder.emits_bytes m.value)))).checksummed.delimited)

theorem failure_messageEmission {m : Message} :
    (messageEmission m).failure = none ↔
      (Emission.array m.key).failure = none ∧ (Emission.array m.value).failure = none := by
  simp only [messageEmission, coveredEmission, Emission.failure_andThen,
    Emission.failure_delimited, Emission.failure_checksummed, true_and]

theorem coveredEmission_eq {m : Message} (hkey : (Emission.array m.key).failure = none)
    (hvalue : (Emission.array m.value).failure = none) :
    coveredEmission m = ⟨covered m, none⟩ := by
  simp only [coveredEmission, Emission.andThen, hkey, hvalue, covered]

/-- A message that is written at all is written as its record, with offset zero. -/
theorem messageEmission_eq {m : Message} (hkey : (Emission.array m.key).failure = none)
    (hvalue : (Emission.array m.value).failure = none) :
    messageEmission m = ⟨(Record.ofMessage m).bytes, none⟩ := by
  rw [messageEmission, coveredEmission_eq hkey hvalue]
  rfl

/-- A message fits if few enough bytes are written for it. -/
theorem fits_of_messageEmission {m : Message} (hok : (messageEmission m).failure = none)
    (hlength : (messageEmission m).bytes.length < lengthLimit) : Fits m := by
  obtain ⟨hkey, hvalue⟩ := failure_messageEmission.mp hok
  rw [messageEmission_eq hkey hvalue] at hlength
  simp only [Record.bytes, Record.ofMessage, List.length_append, length_bodyOf hkey hvalue]
    at hlength
  unfold Fits
  omega

/-- Messages are written one behind the other. -/
theorem emits_encode (messages : List Message) :
    (encode messages).Emits (Emission.each messageEmission messages) :=
  Encoder.Emits.forM fun m _ => emits_encodeMessage m

/-- Messages that fit are written as their records. -/
theorem each_messageEmission {messages : List Message} (h : ∀ m ∈ messages, Fits m) :
    Emission.each messageEmission messages =
      ⟨messages.flatMap fun m => (Record.ofMessage m).bytes, none⟩ := by
  rw [← Emission.each_ok]
  refine Emission.each_congr fun m hm => ?_
  exact messageEmission_eq (h m hm).key (h m hm).value

/-! ### Reading -/

/-- What is split off depends on the size behind the offset alone. -/
theorem nextRecord?_header (offset : Int64) (size : Int32) (rest : Bytes) :
    nextRecord? (BigEndian.ofInt64 offset ++ (BigEndian.ofInt32 size ++ rest)) =
      if size < 0 ∨ rest.length < size.toNatClampNeg then none
      else some (⟨offset, rest.take size.toNatClampNeg⟩, rest.drop size.toNatClampNeg) := by
  have hset : BigEndian.ofInt64 offset ++ (BigEndian.ofInt32 size ++ rest) =
      (BigEndian.ofInt64 offset ++ BigEndian.ofInt32 size) ++ rest :=
    (List.append_assoc ..).symm
  have hlength : (BigEndian.ofInt64 offset ++ BigEndian.ofInt32 size).length = headerSize := by
    simp [headerSize]
  have hoffset : (BigEndian.ofInt64 offset ++ BigEndian.ofInt32 size).take 8 =
      BigEndian.ofInt64 offset := List.take_left' (by simp)
  have hsize : (BigEndian.ofInt64 offset ++ BigEndian.ofInt32 size).drop 8 =
      BigEndian.ofInt32 size := List.drop_left' (by simp)
  rw [hset, nextRecord?]
  simp only [List.take_left' hlength, List.drop_left' hlength, hlength, hoffset, hsize,
    BigEndian.toInt32_ofInt32, BigEndian.toInt64_ofInt64, Nat.lt_irrefl, if_false,
    List.length_take, ← List.drop_drop]
  have hshort : min size.toNatClampNeg rest.length < size.toNatClampNeg ↔
      rest.length < size.toNatClampNeg := by omega
  simp only [hshort]
  split
  · rfl
  · next hwhole =>
    rw [Nat.min_eq_left (Nat.le_of_not_lt (not_or.mp hwhole).2)]

/-- A record in front of any bytes is split off them. -/
theorem nextRecord?_append {record : Record} (h : record.body.length < lengthLimit)
    (rest : Bytes) : nextRecord? (record.bytes ++ rest) = some (record, rest) := by
  have hsize : (Int32.ofNat record.body.length).toNatClampNeg = record.body.length :=
    toNatClampNeg_ofNat h
  have hnonneg : ¬Int32.ofNat record.body.length < 0 :=
    Int32.not_lt.mpr (Int32.zero_le_ofNat_of_lt h)
  have hwhole : ¬(record.body ++ rest).length < record.body.length := by simp
  rw [Record.bytes, List.append_assoc, List.append_assoc, nextRecord?_header, hsize,
    if_neg (not_or.mpr ⟨hnonneg, hwhole⟩), List.take_left, List.drop_left]

theorem records_append {record : Record} (h : record.body.length < lengthLimit) (rest : Bytes) :
    records (record.bytes ++ rest) = record :: records rest := by
  rw [records]
  split
  · next hnone =>
    rw [nextRecord?_append h] at hnone
    contradiction
  · next hsome =>
    rw [nextRecord?_append h] at hsome
    cases hsome
    rfl

/-- A set that is made of the records of messages is split into these. -/
theorem records_flatMap {messages : List Message} (h : ∀ m ∈ messages, Fits m) :
    records (messages.flatMap fun m => (Record.ofMessage m).bytes) =
      messages.map Record.ofMessage := by
  induction messages with
  | nil => simp [records, nextRecord?, headerSize]
  | cons m messages ih =>
    obtain ⟨hm, hmessages⟩ := List.forall_mem_cons.mp h
    rw [List.flatMap_cons, records_append hm.length_ofMessage, ih hmessages, List.map_cons]

theorem ofAttributes_of_eq {attributes : UInt8} (h : attributes &&& 3 = 0) :
    Codec.ofAttributes attributes = .ok .none := by
  rw [Codec.ofAttributes, attributeCodecMask, h]
  rfl

/-- The fields of a message that is not compressed. -/
theorem reads_fields {m : Message} (hfits : Fits m) (hcodec : m.attributes &&& 3 = 0)
    (offset : Int64) (partitionId : Int32) :
    (fields offset partitionId).Reads (covered m) { m with offset, partitionId } := by
  refine (Decoder.reads_uint8 m.magic).bind ((Decoder.reads_uint8 m.attributes).bind
    ((Decoder.reads_bytes hfits.key).bind ?_))
  rw [ofAttributes_of_eq hcodec]
  exact (Decoder.reads_bytes hfits.value).bind_pure _

/-- A record with a checksum decodes as the bytes behind it, if the checksum is theirs. -/
theorem Record.decode_stored_append {stored : Bytes} (hstored : stored.length = 4)
    (covered : Bytes) (offset : Int64) (partitionId : Int32) :
    Record.decode partitionId ⟨offset, stored ++ covered⟩ =
      if Checksum.stored (Checksum.crc32 covered) ≠ stored then .error (.crcMismatch offset)
      else (fields offset partitionId).decode covered := by
  have hlength : ¬(stored ++ covered).length < 4 := by
    rw [List.length_append]
    omega
  simp only [Record.decode, checksumSize, List.take_left' hstored, List.drop_left' hstored,
    if_neg hlength]

/-- The record of a message decodes to the message. -/
theorem decode_bodyOf {m : Message} (hfits : Fits m) (hcodec : m.attributes &&& 3 = 0)
    (offset : Int64) (partitionId : Int32) :
    Record.decode partitionId ⟨offset, bodyOf m⟩ = .ok { m with offset, partitionId } := by
  have hdecode := (reads_fields hfits hcodec offset partitionId).decode []
  rw [List.append_nil] at hdecode
  rw [bodyOf, Record.decode_stored_append (Checksum.length_stored _), if_neg (absurd rfl)]
  exact hdecode

/-- A set whose first record decodes. -/
theorem decode_append {record : Record} (h : record.body.length < lengthLimit) {m : Message}
    {partitionId : Int32} (hm : record.decode partitionId = .ok m) (rest : Bytes) :
    decode (record.bytes ++ rest) partitionId = (decode rest partitionId).map (m :: ·) := by
  rw [decode, records_append h, List.mapM_cons, hm]
  change (do let later ← decode rest partitionId; pure (m :: later)) = _
  cases decode rest partitionId <;> rfl

/-! ### Offsets -/

/-- The offset of a record in front is replaced. -/
theorem assignOffsets_append {body : Bytes} (h : body.length < lengthLimit) (old new : Int64)
    (offsets : List Int64) (rest : Bytes) :
    assignOffsets (new :: offsets) (Record.bytes ⟨old, body⟩ ++ rest) =
      Record.bytes ⟨new, body⟩ ++ assignOffsets offsets rest := by
  -- the length of the body stands behind the old offset
  have hdrop : (Record.bytes ⟨old, body⟩ ++ rest).drop 8 =
      BigEndian.ofInt32 (Int32.ofNat body.length) ++ (body ++ rest) := by
    simp only [Record.bytes, List.append_assoc]
    exact List.drop_left' (by simp)
  have hsize : (BigEndian.toInt32
      (((Record.bytes ⟨old, body⟩ ++ rest).drop 8).take 4)).toNatClampNeg = body.length := by
    rw [hdrop, List.take_left' (by simp), BigEndian.toInt32_ofInt32, toNatClampNeg_ofNat h]
  have htake : ((Record.bytes ⟨old, body⟩ ++ rest).drop 8).take (4 + body.length) =
      BigEndian.ofInt32 (Int32.ofNat body.length) ++ body := by
    rw [hdrop, ← List.append_assoc]
    exact List.take_left' (by simp)
  have hrest : (Record.bytes ⟨old, body⟩ ++ rest).drop (8 + (4 + body.length)) = rest := by
    rw [← List.drop_drop, hdrop, ← List.append_assoc]
    exact List.drop_left' (by simp)
  simp only [assignOffsets, hsize, htake, hrest]
  simp only [Record.bytes, List.append_assoc]

/-- Messages survive being written as a set, given their offsets, and read again with other
records behind them: magic, attributes, key and value come back as they were, and a failure behind
them is the failure of the whole. -/
theorem decode_assignOffsets_append (messages : List Message) (offsets : List Int64)
    (partitionId : Int32) (rest : Bytes)
    (hcodec : ∀ m ∈ messages, m.attributes &&& 3 = 0)
    (hfits : ∀ m ∈ messages,
      14 + (m.key.getD []).length + (m.value.getD []).length < lengthLimit)
    (hoffsets : offsets.length = messages.length) :
    ∃ set, (∀ b, encode messages b = .ok () (b.append set)) ∧
      decode (assignOffsets offsets set ++ rest) partitionId =
        (decode rest partitionId).map fun later =>
          messages.zipWith (fun m offset => { m with offset, partitionId }) offsets ++ later := by
  refine ⟨messages.flatMap fun m => (Record.ofMessage m).bytes, fun b => ?_, ?_⟩
  · rw [emits_encode messages b, each_messageEmission hfits]
    rfl
  -- the offsets are given out in the order of the records, one by one
  induction messages generalizing offsets with
  | nil =>
    obtain rfl : offsets = [] := List.length_eq_zero_iff.mp hoffsets
    change decode rest partitionId = (decode rest partitionId).map id
    cases decode rest partitionId <;> rfl
  | cons m messages ih =>
    obtain ⟨offset, offsets, rfl⟩ := List.exists_cons_of_length_eq_add_one hoffsets
    obtain ⟨hm, hmessages⟩ := List.forall_mem_cons.mp hfits
    obtain ⟨hcodecM, hcodecs⟩ := List.forall_mem_cons.mp hcodec
    have hfit : Fits m := hm
    have hbody : (bodyOf m).length < lengthLimit := hfit.length_ofMessage
    have hfirst := decode_bodyOf hfit hcodecM offset partitionId
    have hlater := ih offsets hcodecs hmessages (Nat.succ.inj hoffsets)
    rw [List.flatMap_cons, Record.ofMessage, assignOffsets_append hbody, List.append_assoc,
      decode_append hbody hfirst, hlater]
    cases decode rest partitionId <;> rfl

/-- An empty key and no key stay apart, and a byte that is no record is not reported. -/
theorem decode_assignOffsets_two :
    ∃ set, (∀ b, encode [{ attributes := 4, key := some [] }, { magic := 1, value := some [7] }] b =
        .ok () (b.append set)) ∧
      decode (assignOffsets [100, -1] set ++ [0]) 5 =
        .ok [⟨100, 5, 0, 4, some [], none⟩, ⟨-1, 5, 1, 0, none, some [7]⟩] := by
  obtain ⟨set, hset, hdecode⟩ := decode_assignOffsets_append
    [{ attributes := 4, key := some [] }, { magic := 1, value := some [7] }] [100, -1] 5 [0]
    (by decide) (by decide) rfl
  have hrest : decode [0] 5 = .ok [] := by
    simp [decode, records, nextRecord?, headerSize, pure, Except.pure]
  refine ⟨set, hset, hdecode.trans ?_⟩
  rw [hrest]
  rfl

end MessageSet

end BrokerWire
