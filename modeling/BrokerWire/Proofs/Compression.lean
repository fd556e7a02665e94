import BrokerWire.Proofs.Acceptance
import BrokerWire.Proofs.Frames
import BrokerWire.Proofs.Outline

/-!
# Codecs that a request declares

A codec is declared in two places: in a payload and in the attribute bits of a message. A request
with a payload that declares one is refused before anything is written. The attribute bits of
messages are written as they are, whatever they declare, and a message set with such a message is
one that `MessageSet.decode` refuses (`MessageSet.decode_flatMap_ofMessage`). Main statement:
`Produce.decode_sets`, what becomes of each message set of a frame when it is decoded; and a frame
with a message set that is refused.
-/

namespace BrokerWire

namespace MessageSet

variable {m : Message} {messages : List Message}

/-- The record of a message that declares a codec is refused. -/
theorem refused_ofMessage (hfits : Fits m) (hcodec : m.attributes &&& 3 ≠ 0) :
    (Record.ofMessage m).Refused (.unsupportedCodec (m.attributes &&& 3)) := by
  have hkey : Layout.Array (Emission.array m.key).bytes m.key :=
    Decoder.recognizes_bytes.layout_of_reads (Decoder.reads_bytes hfits.key)
  have hsummed : Record.ofMessage m = Record.summed 0 (covered m) := by
    rw [Record.summed, ← Checksum.crc32_eq_bitwise]
    rfl
  rw [hsummed]
  exact .fields 0 (.codec m.magic m.attributes (Emission.array m.value).bytes hkey hcodec)

/-- The records of messages decode to the messages, unless a message declares a codec. The first one
that does makes the set fail. -/
theorem decode_flatMap_ofMessage (hfits : ∀ m ∈ messages, Fits m) (partitionId : Int32) :
    decode (messages.flatMap fun m => (Record.ofMessage m).bytes) partitionId =
      match messages.find? fun m => m.attributes &&& 3 ≠ 0 with
      | none => .ok (messages.map fun m => { m with offset := 0, partitionId })
      | some m => .error (.unsupportedCodec (m.attributes &&& 3)) := by
  rw [decode, records_flatMap hfits]
  induction messages with
  | nil => rfl
  | cons m messages ih =>
    obtain ⟨hm, hmessages⟩ := List.forall_mem_cons.mp hfits
    rw [List.map_cons, List.mapM_cons]
    by_cases hcodec : m.attributes &&& 3 = 0
    · have hdecode : (Record.ofMessage m).decode partitionId =
          .ok { m with offset := 0, partitionId } := decode_bodyOf hm hcodec 0 partitionId
      rw [hdecode, ih hmessages, List.find?_cons_of_neg (by simpa using hcodec)]
      cases messages.find? fun m => m.attributes &&& 3 ≠ 0 with
      | none => rfl
      | some m => rfl
    · rw [(refused_ofMessage hm hcodec).decode_eq, List.find?_cons_of_pos (by simpa using hcodec)]
      rfl

end MessageSet

namespace Produce

variable {r : Request} {bytes : Bytes}

/-- Every message of a frame fits into its record. -/
theorem fits_of_frame (hframe : (BrokerWire.Request.produce r).frame = .ok bytes)
    (hlength : bytes.length < lengthLimit) {payload : Payload} (hpayload : payload ∈ r.payloads)
    {m : Message} (hm : m ∈ payload.messages) : MessageSet.Fits m := by
  obtain ⟨hwrites, rfl⟩ := Request.eq_bytes_of_frame hframe
  have hwithin := Request.within_outline hpayload hm
  have hle := hwithin.length_le hwrites
  exact MessageSet.fits_of_messageEmission (hwithin.writes hwrites) (Nat.lt_of_le_of_lt hle hlength)

theorem Request.mem_messagesOf {topic : String} {partition : Int32} {m : Message} :
    m ∈ r.messagesOf topic partition ↔ ∃ payload ∈ r.payloads,
      (payload.topic = topic ∧ payload.partition = partition) ∧ m ∈ payload.messages := by
  simp only [messagesOf, List.mem_flatMap, List.mem_filter, decide_eq_true_eq, and_assoc]

/-- What becomes of the message set for one partition when it is decoded. -/
theorem decode_records (hframe : (BrokerWire.Request.produce r).frame = .ok bytes)
    (hlength : bytes.length < lengthLimit) (topic : String) (partition : Int32) :
    MessageSet.decode (((r.messagesOf topic partition).map MessageSet.Record.ofMessage).flatMap
        MessageSet.Record.bytes) partition =
      match (r.messagesOf topic partition).find? fun m => m.attributes &&& 3 ≠ 0 with
      | none => .ok ((r.messagesOf topic partition).map fun m =>
          { m with offset := 0, partitionId := partition })
      | some m => .error (.unsupportedCodec (m.attributes &&& 3)) := by
  rw [List.flatMap_map]
  refine MessageSet.decode_flatMap_ofMessage (fun m hm => ?_) partition
  obtain ⟨payload, hpayload, -, hm⟩ := Request.mem_messagesOf.mp hm
  exact fits_of_frame hframe hlength hpayload hm

/-- The message set for one partition decodes if no message in it declares a codec. -/
theorem exists_decode_records_iff (hframe : (BrokerWire.Request.produce r).frame = .ok bytes)
    (hlength : bytes.length < lengthLimit) (topic : String) (partition : Int32) :
    (∃ messages, MessageSet.decode (((r.messagesOf topic partition).map
        MessageSet.Record.ofMessage).flatMap MessageSet.Record.bytes) partition = .ok messages) ↔
      ∀ m ∈ r.messagesOf topic partition, m.attributes &&& 3 = 0 := by
  rw [decode_records hframe hlength]
  cases hfind : (r.messagesOf topic partition).find? fun m => m.attributes &&& 3 ≠ 0 with
  | none =>
    refine ⟨fun _ m hm => ?_, fun _ => ⟨_, rfl⟩⟩
    simpa using List.find?_eq_none.mp hfind m hm
  | some m =>
    have hcodec : m.attributes &&& 3 ≠ 0 := by simpa using List.find?_some hfind
    refine ⟨fun ⟨messages, hdecode⟩ => by contradiction, fun hall => ?_⟩
    exact absurd (hall m (List.mem_of_find?_eq_some hfind)) hcodec

/-- A request with a payload that declares a codec is refused for the first such payload, and
nothing is written. Otherwise a frame is read back, and each of its message sets decodes to the
messages that were handed over for its partition, unless one of them declares a codec in its
attribute bits: then the set is refused for the first one that does. So all sets decode if and only
if no message declares a codec. -/
theorem decode_sets (r : Request) :
    (∀ payload ∈ r.payloads, payload.codec ≠ .none →
      ∃ first, r.payloads.find? (fun payload => payload.codec ≠ .none) = some first ∧
        ∀ b, (BrokerWire.Request.produce r).encode b =
          .error (.unsupportedCodec first.codec.id) b) ∧
    ∀ bytes, (BrokerWire.Request.produce r).frame = .ok bytes → bytes.length < lengthLimit →
      (∃ length, Reception.frame.run (.ofBytes bytes) =
        .ok ⟨length, 0, 0, r.header.correlationId, stated r.header.clientId,
          .produce r.acks r.timeoutMs r.records⟩ ⟨bytes, bytes.length, []⟩) ∧
      (∀ group ∈ r.records, ∀ set ∈ group.2,
        MessageSet.decode (set.2.flatMap MessageSet.Record.bytes) set.1 =
          match (r.messagesOf group.1 set.1).find? fun m => m.attributes &&& 3 ≠ 0 with
          | none => .ok ((r.messagesOf group.1 set.1).map fun m =>
              { m with offset := 0, partitionId := set.1 })
          | some m => .error (.unsupportedCodec (m.attributes &&& 3))) ∧
      ((∀ group ∈ r.records, ∀ set ∈ group.2, ∃ messages,
          MessageSet.decode (set.2.flatMap MessageSet.Record.bytes) set.1 = .ok messages) ↔
        ∀ payload ∈ r.payloads, ∀ m ∈ payload.messages, m.attributes &&& 3 = 0) := by
  refine ⟨fun payload hpayload hcodec => ?_, fun bytes hframe hlength => ?_⟩
  · obtain ⟨first, hfirst⟩ : ∃ first,
        r.payloads.find? (fun payload => payload.codec ≠ .none) = some first :=
      Option.isSome_iff_exists.mp (List.find?_isSome.mpr ⟨payload, hpayload, decide_eq_true hcodec⟩)
    refine ⟨first, hfirst, fun b => ?_⟩
    rw [BrokerWire.Request.encode_produce_of_some hfirst]
    rfl
  -- the records of a set are those of the messages for its partition
  have hof : ∀ group ∈ r.records, ∀ set ∈ group.2,
      set.2 = (r.messagesOf group.1 set.1).map MessageSet.Record.ofMessage :=
    fun group hgroup set hset => (Request.mem_records.mp ⟨group.2, hgroup, hset⟩).2
  refine ⟨⟨_, Reception.read_frame hframe hlength⟩, fun group hgroup set hset => ?_,
    fun hall payload hpayload m hm => ?_, fun hplain group hgroup set hset => ?_⟩
  · rw [hof group hgroup set hset]
    exact decode_records hframe hlength group.1 set.1
  · obtain ⟨partitions, hpartitions, hrecords⟩ :=
      Request.mem_records.mpr ⟨⟨payload, hpayload, rfl, rfl⟩, rfl⟩
    have hdecode := hall _ hpartitions _ hrecords
    refine (exists_decode_records_iff hframe hlength _ _).mp hdecode m ?_
    exact Request.mem_messagesOf.mpr ⟨payload, hpayload, ⟨rfl, rfl⟩, hm⟩
  · rw [hof group hgroup set hset]
    refine (exists_decode_records_iff hframe hlength _ _).mpr fun m hm => ?_
    obtain ⟨payload, hpayload, -, hm⟩ := Request.mem_messagesOf.mp hm
    exact hplain payload hpayload m hm

/-- A payload that declares a codec stops the request before a byte is written, and without one the
messages of a partition come back from their set. -/
theorem decode_sets_plain :
    (∀ b, (BrokerWire.Request.produce ⟨⟨7, none⟩, 1, 250,
        [⟨"t", 0, .none, [{}]⟩, ⟨"t", 1, .snappy, []⟩, ⟨"t", 2, .gzip, []⟩]⟩).encode b =
          .error (.unsupportedCodec 2) b) ∧
      ∃ (bytes : Bytes) (length : Int32) (records : List MessageSet.Record),
        (BrokerWire.Request.produce ⟨⟨7, none⟩, 1, 250,
          [⟨"t", 1, .none, [{ value := some [1] }]⟩, ⟨"u", 1, .none, []⟩,
            ⟨"t", 1, .none, [{ attributes := 4 }]⟩]⟩).frame = .ok bytes ∧
        Reception.frame.run (.ofBytes bytes) =
          .ok ⟨length, 0, 0, 7, none, .produce 1 250 [("t", [(1, records)]), ("u", [(1, [])])]⟩
            ⟨bytes, bytes.length, []⟩ ∧
        MessageSet.decode (records.flatMap MessageSet.Record.bytes) 1 =
          .ok [{ partitionId := 1, value := some [1] },
            { partitionId := 1, attributes := 4 }] := by
  refine ⟨fun b => ?_, ?_⟩
  · obtain ⟨first, hfirst, hencode⟩ := (decode_sets ⟨⟨7, none⟩, 1, 250,
      [⟨"t", 0, .none, [{}]⟩, ⟨"t", 1, .snappy, []⟩, ⟨"t", 2, .gzip, []⟩]⟩).1
        ⟨"t", 2, .gzip, []⟩ (by decide) (by decide)
    cases hfirst
    exact hencode b
  · obtain ⟨bytes, hframe, hlength⟩ : ∃ bytes, (BrokerWire.Request.produce ⟨⟨7, none⟩, 1, 250,
        [⟨"t", 1, .none, [{ value := some [1] }]⟩, ⟨"u", 1, .none, []⟩,
          ⟨"t", 1, .none, [{ attributes := 4 }]⟩]⟩).frame = .ok bytes ∧
            bytes.length < lengthLimit := by
      simp only [BrokerWire.Request.frame, BrokerWire.Request.encode, Request.encode, Request.body,
        partitions_eq]
      refine ⟨_, rfl, ?_⟩
      decide +kernel
    have hrecords : Request.records ⟨⟨7, none⟩, 1, 250,
        [⟨"t", 1, .none, [{ value := some [1] }]⟩, ⟨"u", 1, .none, []⟩,
          ⟨"t", 1, .none, [{ attributes := 4 }]⟩]⟩ =
        [("t", [(1, [MessageSet.Record.ofMessage { value := some [1] },
          MessageSet.Record.ofMessage { attributes := 4 }])]), ("u", [(1, [])])] := rfl
    obtain ⟨⟨length, hrun⟩, hsets, -⟩ := (decode_sets _).2 bytes hframe hlength
    rw [hrecords] at hrun hsets
    have hset := hsets _ (List.mem_cons_self ..) _ (List.mem_cons_self ..)
    exact ⟨bytes, length, _, hframe, hrun, hset.trans rfl⟩

/-- A message that declares a codec is written, and its message set is refused. -/
theorem decode_sets_compressed :
    ∃ (bytes : Bytes) (length : Int32) (records : List MessageSet.Record),
      (BrokerWire.Request.produce ⟨{}, 1, 1000,
        [⟨"t", 0, .none, [{ attributes := 1, value := some [1] }]⟩]⟩).frame = .ok bytes ∧
      Reception.frame.run (.ofBytes bytes) =
        .ok ⟨length, 0, 0, 1, some "thorwire", .produce 1 1000 [("t", [(0, records)])]⟩
          ⟨bytes, bytes.length, []⟩ ∧
      MessageSet.decode (records.flatMap MessageSet.Record.bytes) 0 =
        .error (.unsupportedCodec 1) := by
  obtain ⟨bytes, hframe, hlength⟩ : ∃ bytes, (BrokerWire.Request.produce ⟨{}, 1, 1000,
      [⟨"t", 0, .none, [{ attributes := 1, value := some [1] }]⟩]⟩).frame = .ok bytes ∧
        bytes.length < lengthLimit := by
    simp only [BrokerWire.Request.frame, BrokerWire.Request.encode, Request.encode, Request.body,
      partitions_eq]
    refine ⟨_, rfl, ?_⟩
    decide +kernel
  exact ⟨bytes, _, _, hframe, Reception.read_frame hframe hlength,
    decode_records hframe hlength "t" 0⟩

end Produce

end BrokerWire
