import BrokerWire.Proofs.Emission
import BrokerWire.Proofs.Grouping
import BrokerWire.Proofs.Records
import BrokerWire.Request

/-!
# Outlines of request frames

A frame is nested. It stands behind its length, a message set in it stands behind its own, and each
record of the set has a length and a checksum. An `Outline` is this nesting as data: its leaves are
what is written without going back, and its other nodes say what is filled in afterwards.

`Request.outline` is the outline of a request's frame, and a request is written as its outline says
(`Request.emits_encode`). What holds of every part of an outline is proved by recursion on it, so no
proof about lengths has to follow seven encoders. `Outline.Within` relates a part to the whole: the
whole is written only if the part is, and the part is not longer.
-/

namespace BrokerWire

/-- How a text of bytes is put together. -/
inductive Outline where
  /-- Something that is written without going back. -/
  | leaf (emission : Emission)
  /-- One part behind another. -/
  | append (front back : Outline)
  /-- A part behind its length. -/
  | delimited (body : Outline)
  /-- A part behind its checksum. -/
  | checksummed (body : Outline)
  deriving DecidableEq, Repr

namespace Outline

/-- What is written for an outline. -/
def emission : Outline → Emission
  | leaf emission => emission
  | append front back => front.emission.andThen back.emission
  | delimited body => body.emission.delimited
  | checksummed body => body.emission.checksummed

/-- The bytes of an outline. -/
def bytes (o : Outline) : Bytes := o.emission.bytes

/-- Whether all of an outline is written. -/
def Writes (o : Outline) : Prop := o.emission.failure = none

instance (o : Outline) : Decidable o.Writes := inferInstanceAs (Decidable (_ = none))

/-- Bytes as they are. -/
def raw (bytes : Bytes) : Outline := leaf ⟨bytes, none⟩

/-- A text behind its length. A text that is too long is refused. -/
def text (text : Option String) : Outline := leaf (Emission.string text)

/-- The outlines of the members of a list, one behind the other. -/
def each (f : α → Outline) : List α → Outline
  | [] => raw []
  | a :: as => append (f a) (each f as)

/-- The members of a list behind their number. -/
def counted (f : α → Outline) (as : List α) : Outline :=
  append (raw (BigEndian.ofInt32 (Int32.ofNat as.length))) (each f as)

/-- Topics behind their number, each a name and its members behind their number. -/
def topics (groups : List (String × List α)) (member : α → Outline) : Outline :=
  counted (fun group => append (text (some group.1)) (counted member group.2)) groups

/-! ### Parts -/

/-- One outline is a part of another. -/
inductive Within (part : Outline) : Outline → Prop
  | refl : Within part part
  | front {o : Outline} (h : Within part o) (back : Outline) : Within part (append o back)
  | back (front : Outline) {o : Outline} (h : Within part o) : Within part (append front o)
  | delimited {o : Outline} (h : Within part o) : Within part (delimited o)
  | checksummed {o : Outline} (h : Within part o) : Within part (checksummed o)

variable {part whole o front back body : Outline}

theorem Within.trans (h : part.Within o) (h' : o.Within whole) : part.Within whole := by
  induction h' with
  | refl => exact h
  | front _ back ih => exact ih.front back
  | back front _ ih => exact ih.back front
  | delimited _ ih => exact ih.delimited
  | checksummed _ ih => exact ih.checksummed

theorem within_each {f : α → Outline} {a : α} {as : List α} (h : a ∈ as) :
    (f a).Within (each f as) := by
  induction as with
  | nil => contradiction
  | cons a' as ih =>
    rcases List.mem_cons.mp h with rfl | h
    · exact Within.refl.front _
    · exact (ih h).back _

theorem within_topics {groups : List (String × List α)} {member : α → Outline}
    {group : String × List α} (hgroup : group ∈ groups) {a : α} (ha : a ∈ group.2) :
    (member a).Within (topics groups member) := by
  have hmember : (member a).Within (counted member group.2) := (within_each ha).back _
  refine ((hmember.back (text (some group.1))).trans ?_).back _
  exact within_each (f := fun group => append (text (some group.1)) (counted member group.2)) hgroup

/-! ### What is written -/

theorem writes_raw (bytes : Bytes) : (raw bytes).Writes := rfl

theorem writes_append : (append front back).Writes ↔ front.Writes ∧ back.Writes :=
  Emission.failure_andThen

theorem writes_delimited : (delimited body).Writes ↔ body.Writes := Emission.failure_delimited

theorem writes_checksummed : (checksummed body).Writes ↔ body.Writes :=
  Emission.failure_checksummed

theorem writes_each {f : α → Outline} {as : List α} :
    (each f as).Writes ↔ ∀ a ∈ as, (f a).Writes := by
  induction as with
  | nil => exact ⟨fun _ => by simp, fun _ => writes_raw []⟩
  | cons a as ih => rw [each, writes_append, ih, List.forall_mem_cons]

theorem writes_counted {f : α → Outline} {as : List α} :
    (counted f as).Writes ↔ ∀ a ∈ as, (f a).Writes :=
  writes_append.trans ((and_iff_right (writes_raw _)).trans writes_each)

theorem writes_topics {groups : List (String × List α)} {member : α → Outline} :
    (topics groups member).Writes ↔
      ∀ group ∈ groups, (text (some group.1)).Writes ∧ ∀ a ∈ group.2, (member a).Writes := by
  simp only [topics, writes_counted, writes_append]

theorem bytes_append (h : front.Writes) : (append front back).bytes = front.bytes ++ back.bytes :=
  Emission.bytes_andThen h back.emission

theorem bytes_delimited (h : body.Writes) :
    (delimited body).bytes = BigEndian.ofInt32 (Int32.ofNat body.bytes.length) ++ body.bytes :=
  Emission.bytes_delimited h

theorem bytes_checksummed (h : body.Writes) :
    (checksummed body).bytes = Checksum.stored (Checksum.crc32 body.bytes) ++ body.bytes := by
  have hbody : body.emission.failure = none := h
  simp only [bytes, emission, Emission.checksummed, hbody]

theorem bytes_each {f : α → Outline} {as : List α} (h : (each f as).Writes) :
    (each f as).bytes = as.flatMap fun a => (f a).bytes := by
  induction as with
  | nil => rfl
  | cons a as ih =>
    obtain ⟨ha, has⟩ := writes_append.mp h
    rw [each, bytes_append ha, ih has, List.flatMap_cons]

/-- A part of what is written is written. -/
theorem Within.writes (h : part.Within whole) (hwhole : whole.Writes) : part.Writes := by
  induction h with
  | refl => exact hwhole
  | front _ back ih => exact ih (writes_append.mp hwhole).1
  | back front _ ih => exact ih (writes_append.mp hwhole).2
  | delimited _ ih => exact ih (writes_delimited.mp hwhole)
  | checksummed _ ih => exact ih (writes_checksummed.mp hwhole)

/-- A part of what is written is not longer than the whole. -/
theorem Within.length_le (h : part.Within whole) (hwhole : whole.Writes) :
    part.bytes.length ≤ whole.bytes.length := by
  induction h with
  | refl => exact Nat.le_refl _
  | front _ back ih =>
    obtain ⟨hfront, -⟩ := writes_append.mp hwhole
    have hle := ih hfront
    rw [bytes_append hfront, List.length_append]
    omega
  | back front _ ih =>
    obtain ⟨hfront, hback⟩ := writes_append.mp hwhole
    have hle := ih hback
    rw [bytes_append hfront, List.length_append]
    omega
  | delimited _ ih =>
    have hbody := writes_delimited.mp hwhole
    have hle := ih hbody
    rw [bytes_delimited hbody, List.length_append]
    omega
  | checksummed _ ih =>
    have hbody := writes_checksummed.mp hwhole
    have hle := ih hbody
    rw [bytes_checksummed hbody, List.length_append]
    omega

end Outline

/-! ### Encoders -/

namespace Encoder

open Outline

theorem emits_each {f : α → Encoder Unit} {o : α → Outline} {as : List α}
    (h : ∀ a ∈ as, (f a).Emits (o a).emission) : (as.forM f).Emits (each o as).emission := by
  induction as with
  | nil => exact emits_pure
  | cons a as ih =>
    obtain ⟨ha, has⟩ := List.forall_mem_cons.mp h
    exact ha.bind (ih has)

theorem emits_counted {f : α → Encoder Unit} {o : α → Outline} {as : List α}
    (h : ∀ a ∈ as, (f a).Emits (o a).emission) :
    (count as.length >>= fun _ => as.forM f).Emits (counted o as).emission :=
  (emits_raw _).bind (emits_each h)

theorem emits_outlineTopics {groups : List (String × List α)} {member : α → Encoder Unit}
    {o : α → Outline} (h : ∀ a, (member a).Emits (o a).emission) :
    (Encoder.topics groups member).Emits (Outline.topics groups o).emission :=
  emits_counted fun group _ => (emits_string (some group.1)).bind (emits_counted fun a _ => h a)

end Encoder

/-! ### Requests -/

open Encoder Outline

/-- The outline of a request from its header on. -/
def Outline.headed (key : ApiKey) (header : RequestHeader) (body : Outline) : Outline :=
  append (raw (BigEndian.ofInt16 key.code)) <|
    append (raw (BigEndian.ofInt16 apiVersion)) <|
      append (raw (BigEndian.ofInt32 header.correlationId)) <| append (text header.clientId) body

theorem Outline.writes_headed {key : ApiKey} {header : RequestHeader} {body : Outline} :
    (headed key header body).Writes ↔ (text header.clientId).Writes ∧ body.Writes := by
  simp only [headed, writes_append, writes_raw, true_and]

theorem Outline.Within.headed {part body : Outline} (h : part.Within body) (key : ApiKey)
    (header : RequestHeader) : part.Within (headed key header body) :=
  (((h.back _).back _).back _).back _

/-- The outline of the record of a message. -/
def Message.outline (m : Message) : Outline :=
  append (raw (BigEndian.ofInt64 0)) (delimited (checksummed (leaf (MessageSet.coveredEmission m))))

theorem Message.writes_outline_iff {m : Message} :
    m.outline.Writes ↔
      (Emission.array m.key).failure = none ∧ (Emission.array m.value).failure = none :=
  MessageSet.failure_messageEmission

theorem Message.bytes_outline {m : Message} (h : m.outline.Writes) :
    m.outline.bytes = (MessageSet.Record.ofMessage m).bytes := by
  obtain ⟨hkey, hvalue⟩ := Message.writes_outline_iff.mp h
  exact congrArg Emission.bytes (MessageSet.messageEmission_eq hkey hvalue)

/-- The outline of a message set behind its size. -/
def Outline.messageSet (messages : List Message) : Outline :=
  delimited (each Message.outline messages)

/-- The outline of one partition's payloads. -/
def Outline.partition (run : Int32 × List Payload) : Outline :=
  append (raw (BigEndian.ofInt32 run.1)) (messageSet (run.2.flatMap Payload.messages))

theorem emits_framed (key : ApiKey) (header : RequestHeader) {body : Encoder Unit} {o : Outline}
    (h : body.Emits o.emission) :
    (Encoder.framed key header body).Emits (delimited (headed key header o)).emission :=
  ((emits_raw _).bind ((emits_raw _).bind ((emits_raw _).bind
    ((emits_string header.clientId).bind h)))).delimited

theorem emits_partition (run : Int32 × List Payload) :
    (Encoder.int32 run.1 >>= fun _ =>
      Encoder.delimited (MessageSet.encode (run.2.flatMap Payload.messages))).Emits
        (partition run).emission :=
  (emits_raw _).bind (emits_each fun m _ => MessageSet.emits_encodeMessage m).delimited

namespace Request

/-- The outline of what follows the header of a request. -/
def bodyOutline : Request → Outline
  | produce r =>
    append (raw (BigEndian.ofInt16 r.acks)) <| append (raw (BigEndian.ofInt32 r.timeoutMs)) <|
      topics r.partitions partition
  | fetch r =>
    append (raw (BigEndian.ofInt32 clientReplicaId)) <|
      append (raw (BigEndian.ofInt32 r.maxWaitTime)) <|
        append (raw (BigEndian.ofInt32 r.minBytes)) <|
          topics (groupByTopic Fetch.Entry.topic Fetch.Entry.partitionId r.fetches) fun entry =>
            append (raw (BigEndian.ofInt32 entry.partitionId)) <|
              append (raw (BigEndian.ofInt64 entry.offset)) <|
                raw (BigEndian.ofInt32 entry.maxBytes)
  | offset r =>
    append (raw (BigEndian.ofInt32 clientReplicaId)) <|
      topics (groupByTopic Offset.Entry.topic Offset.Entry.partitionId r.offsets) fun entry =>
        append (raw (BigEndian.ofInt32 entry.partitionId)) <|
          append (raw (BigEndian.ofInt64 entry.time)) <|
            raw (BigEndian.ofInt32 entry.maxOffsets)
  | metadata r => counted (fun topic => text (some topic)) r.topics
  | offsetCommit r =>
    append (text (some r.group)) <|
      topics (groupByTopic OffsetCommit.Entry.topic OffsetCommit.Entry.partitionId r.commits)
        fun entry =>
          append (raw (BigEndian.ofInt32 entry.partitionId)) <|
            append (raw (BigEndian.ofInt64 entry.offset)) <|
              append (raw (BigEndian.ofInt64 entry.timestamp)) <| text entry.metadata
  | offsetFetch r =>
    append (text (some r.group)) <|
      topics (groupByTopic OffsetFetch.Entry.topic OffsetFetch.Entry.partitionId r.topics)
        fun entry => raw (BigEndian.ofInt32 entry.partitionId)
  | consumerMetadata r => text (some r.group)

/-- The outline of a request's frame, which is the request behind its length. -/
def outline (r : Request) : Outline := delimited (headed r.kind.apiKey r.header r.bodyOutline)

/-- A request to append, if it has no payload that is to be compressed. -/
theorem emits_produce {r : Produce.Request} (h : ∀ payload ∈ r.payloads, payload.codec = .none) :
    (produce r).encode.Emits (produce r).outline.emission := by
  have hfind : r.payloads.find? (fun payload => payload.codec ≠ .none) = none := by
    rw [List.find?_eq_none]
    intro payload hpayload
    simp [h payload hpayload]
  rw [encode_produce_of_none hfind]
  refine emits_framed .produce r.header ?_
  exact (emits_raw _).bind ((emits_raw _).bind (emits_outlineTopics emits_partition))

theorem encode_produce {r : Produce.Request} (h : ∀ payload ∈ r.payloads, payload.codec = .none)
    (hwrites : (produce r).outline.Writes) (b : FrameBuffer) :
    (produce r).encode b = .ok () (b.append (produce r).outline.bytes) := by
  have hok : (produce r).outline.emission.failure = none := hwrites
  rw [emits_produce h b, Emission.onto, hok]
  rfl

/-- The payloads of a request; only a request to append has any. -/
def payloads : Request → List Payload
  | produce r => r.payloads
  | _ => []

/-- A request is refused for the first payload that is to be compressed. -/
theorem encode_of_compressed {r : Request} {payload : Payload}
    (h : r.payloads.find? (fun payload => payload.codec ≠ .none) = some payload) :
    r.encode = throw (.unsupportedCodec payload.codec.id) := by
  cases r with
  | produce r => exact encode_produce_of_some h
  | _ => contradiction

/-- A request of which no payload is to be compressed is written as its outline says. -/
theorem emits_encode {r : Request} (h : ∀ payload ∈ r.payloads, payload.codec = .none) :
    r.encode.Emits r.outline.emission := by
  cases r with
  | produce r => exact emits_produce h
  | fetch r =>
    refine emits_framed .fetch r.header ?_
    exact (emits_raw _).bind ((emits_raw _).bind ((emits_raw _).bind
      (emits_outlineTopics fun entry =>
        (emits_raw _).bind ((emits_raw _).bind (emits_raw _)))))
  | offset r =>
    refine emits_framed .offset r.header ?_
    exact (emits_raw _).bind (emits_outlineTopics fun entry =>
      (emits_raw _).bind ((emits_raw _).bind (emits_raw _)))
  | metadata r =>
    refine emits_framed .metadata r.header ?_
    exact emits_counted fun topic _ => emits_string (some topic)
  | offsetCommit r =>
    refine emits_framed .offsetCommit r.header ?_
    exact (emits_string _).bind (emits_outlineTopics fun entry =>
      (emits_raw _).bind ((emits_raw _).bind ((emits_raw _).bind (emits_string entry.metadata))))
  | offsetFetch r =>
    refine emits_framed .offsetFetch r.header ?_
    exact (emits_string _).bind (emits_outlineTopics fun entry => emits_raw _)
  | consumerMetadata r => exact emits_framed .consumerMetadata r.header (emits_string _)

/-- A request has a payload that is to be compressed, and is refused for it, or is written as its
outline says. -/
theorem encode_or_emits (r : Request) :
    (∃ payload, r.payloads.find? (fun payload => payload.codec ≠ .none) = some payload ∧
      r.encode = throw (.unsupportedCodec payload.codec.id)) ∨
    (∀ payload ∈ r.payloads, payload.codec = .none) ∧ r.encode.Emits r.outline.emission := by
  cases hfind : r.payloads.find? fun payload => payload.codec ≠ .none with
  | some payload => exact .inl ⟨payload, rfl, encode_of_compressed hfind⟩
  | none =>
    have hplain : ∀ payload ∈ r.payloads, payload.codec = .none := fun payload hpayload => by
      simpa using List.find?_eq_none.mp hfind payload hpayload
    exact .inr ⟨hplain, emits_encode hplain⟩

/-- What a request adds to a buffer when it succeeds. -/
theorem eq_append_of_encode {r : Request} {b b' : FrameBuffer} (h : r.encode b = .ok () b') :
    r.outline.Writes ∧ b' = b.append r.outline.bytes := by
  obtain ⟨payload, -, hthrow⟩ | ⟨-, hemits⟩ := r.encode_or_emits
  · rw [hthrow] at h
    contradiction
  · rw [hemits b, Emission.onto] at h
    split at h
    · next hok => exact ⟨hok, (EStateM.Result.ok.inj h).2.symm⟩
    · contradiction

/-- What a request is written as on its own. -/
theorem eq_bytes_of_frame {r : Request} {bytes : Bytes} (h : r.frame = .ok bytes) :
    r.outline.Writes ∧ bytes = r.outline.bytes := by
  obtain ⟨b, hb, rfl⟩ : ∃ b, r.encode .empty = .ok () b ∧ b.toList = bytes := by
    unfold frame Encoder.encode EStateM.run at h
    split at h
    · next b hb => exact ⟨b, hb, Except.ok.inj h⟩
    · contradiction
  obtain ⟨hwrites, rfl⟩ := eq_append_of_encode hb
  exact ⟨hwrites, FrameBuffer.toList_append _ _⟩

end Request

/-! ### Messages in a request -/

namespace Produce.Request

variable {r : Produce.Request} {payload : Payload} {m : Message}

/-- Every payload comes under its topic. -/
theorem exists_mem_partitions (h : payload ∈ r.payloads) :
    ∃ group ∈ r.partitions, group.1 = payload.topic ∧ ∃ run ∈ group.2, payload ∈ run.2 := by
  have htopic : payload ∈ r.payloads.filter (·.topic = payload.topic) :=
    List.mem_filter.mpr ⟨h, decide_eq_true rfl⟩
  have hgroup : (payload.topic, r.payloads.filter (·.topic = payload.topic)) ∈
      groupedBy Payload.topic r.payloads := mem_groupedBy.mpr ⟨rfl, payload, h, rfl⟩
  have hrun : (payload.partition,
      (r.payloads.filter (·.topic = payload.topic)).filter (·.partition = payload.partition)) ∈
        groupedBy Payload.partition (r.payloads.filter (·.topic = payload.topic)) :=
    mem_groupedBy.mpr ⟨rfl, payload, htopic, rfl⟩
  rw [partitions_eq]
  exact ⟨_, List.mem_map_of_mem hgroup, rfl, _, hrun,
    List.mem_filter.mpr ⟨htopic, decide_eq_true rfl⟩⟩

/-- Under every topic come payloads of the request, and one of them is for that topic. -/
theorem mem_payloads_of_mem_partitions {group : String × List (Int32 × List Payload)}
    (h : group ∈ r.partitions) :
    (∃ payload ∈ r.payloads, payload.topic = group.1) ∧
      ∀ run ∈ group.2, ∀ payload ∈ run.2, payload ∈ r.payloads := by
  rw [partitions_eq] at h
  obtain ⟨⟨topic, payloads⟩, hgroup, rfl⟩ := List.mem_map.mp h
  obtain ⟨hpayloads, hsome⟩ := mem_groupedBy.mp hgroup
  refine ⟨hsome, fun run hrun payload hpayload => ?_⟩
  rw [(mem_groupedBy.mp hrun).1] at hpayload
  have hmem : payload ∈ r.payloads.filter (·.topic = topic) :=
    hpayloads ▸ (List.mem_filter.mp hpayload).1
  exact (List.mem_filter.mp hmem).1

/-- The record of every message is a part of the frame. -/
theorem within_outline (hpayload : payload ∈ r.payloads) (hm : m ∈ payload.messages) :
    m.outline.Within (BrokerWire.Request.produce r).outline := by
  obtain ⟨group, hgroup, -, run, hrun, hpayload⟩ := exists_mem_partitions hpayload
  have hset : m.outline.Within (partition run) :=
    (within_each (List.mem_flatMap.mpr ⟨payload, hpayload, hm⟩)).delimited.back _
  have hbody : m.outline.Within (BrokerWire.Request.produce r).bodyOutline :=
    ((hset.trans (within_topics hgroup hrun)).back _).back _
  exact (hbody.headed _ r.header).delimited

/-- A request to append is written if its texts and its messages can be. -/
theorem writes_outline_iff :
    (BrokerWire.Request.produce r).outline.Writes ↔ (text r.header.clientId).Writes ∧
      ∀ payload ∈ r.payloads, (text (some payload.topic)).Writes ∧
        ∀ m ∈ payload.messages, m.outline.Writes := by
  simp only [BrokerWire.Request.outline, BrokerWire.Request.bodyOutline, partition, messageSet,
    writes_delimited, writes_headed, writes_append, writes_topics, writes_each, writes_raw,
    true_and, List.mem_flatMap]
  refine and_congr_right fun _ => ⟨fun h payload hpayload => ?_, fun h group hgroup => ?_⟩
  · obtain ⟨group, hgroup, htopic, run, hrun, hmem⟩ := exists_mem_partitions hpayload
    obtain ⟨hname, hruns⟩ := h group hgroup
    exact ⟨htopic ▸ hname, fun m hm => hruns run hrun m ⟨payload, hmem, hm⟩⟩
  · obtain ⟨⟨payload, hpayload, htopic⟩, hmem⟩ := mem_payloads_of_mem_partitions hgroup
    refine ⟨htopic ▸ (h payload hpayload).1, fun run hrun m ⟨payload, hpayload, hm⟩ => ?_⟩
    exact (h payload (hmem run hrun payload hpayload)).2 m hm

end Produce.Request

end BrokerWire
