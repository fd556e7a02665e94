import BrokerWire.Proofs.ReadBack
import BrokerWire.Proofs.Reception

/-!
# Request frames are read back

Every part of a request is an encoder that the corresponding part of `Reception.frame` reads back,
and the frame is put together from its parts (`readBack_encode`).
-/

namespace BrokerWire

open Encoder Decoder

namespace Reception

/-! ### Length fields -/

/-- Where the number in front is great enough, the check makes no difference. -/
theorem reads_startingFrom {least n : Int} {number : Decoder Int} {d : Decoder α}
    {front back : Bytes} {a : α} (hnumber : number.Reads front n) (hleast : least ≤ n)
    (h : d.Reads (front ++ back) a) : (startingFrom least number d).Reads (front ++ back) a := by
  intro buffer position rest
  have hfront := hnumber buffer position (back ++ rest)
  rw [← List.append_assoc] at hfront
  change EStateM.bind number _ _ = _
  unfold EStateM.bind
  rw [hfront]
  simp only [if_neg (Int.not_lt.mpr hleast)]
  exact h buffer position rest

theorem reads_size (n : Nat) (h : n < lengthLimit) :
    size.Reads (BigEndian.ofInt32 (Int32.ofNat n)) n := by
  have hcount := reads_count h
  rw [← List.append_nil (BigEndian.ofInt32 _)] at hcount ⊢
  refine reads_startingFrom ((reads_int32 _).map Int32.toInt) ?_ hcount
  rw [Int32.toInt_ofNat_of_lt h]
  exact Int.natCast_nonneg n

/-- The length in front of a text that is written is -1 or not negative. -/
theorem exists_length_string {text : Option String}
    (h : (Emission.string text).failure = none) : ∃ (length : Int16) (back : Bytes),
      (Emission.string text).bytes = BigEndian.ofInt16 length ++ back ∧ -1 ≤ length.toInt := by
  simp only [Emission.string] at h ⊢
  split_ifs at h ⊢ with hmax hempty
  · exact ⟨-1, [], (List.append_nil _).symm, by decide⟩
  · have hlt : (Utf8.encode (text.getD "")).length < 2 ^ 15 :=
      Nat.lt_succ_of_le (Nat.le_of_not_lt hmax)
    refine ⟨_, _, rfl, ?_⟩
    rw [Int16.toInt_ofNat_of_lt hlt]
    omega

theorem readBack_text (string : Option String) :
    (Encoder.string string).ReadBack text (stated string) :=
  (emits_string string).readBack fun h _ => by
    have hreads := reads_string h
    obtain ⟨length, back, hbytes, hlength⟩ := exists_length_string h
    rw [hbytes] at hreads ⊢
    exact reads_startingFrom ((reads_int16 length).map Int16.toInt) hlength hreads

theorem readBack_name (topic : String) : (Encoder.string (some topic)).ReadBack name topic := by
  have hname := (readBack_text (some topic)).bind_pure (·.getD "")
  have hstated : (stated (some topic)).getD "" = topic := by
    rw [stated_some]
    split
    · next htopic => exact htopic.symm
    · rfl
  rwa [hstated] at hname

/-! ### Members of topics -/

/-- Topics with their members. -/
theorem readBack_topics {groups : List (String × List α)} {member : α → Encoder Unit}
    (item : String → Decoder β) {g : α → β}
    (h : ∀ group ∈ groups, ∀ m ∈ group.2, (member m).ReadBack (item group.1) (g m))
    (hitem : ∀ topic b, ¬(item topic).Reads [] b) :
    (Encoder.topics groups member).ReadBack (topics item)
      (groups.map fun group => (group.1, group.2.map g)) := by
  refine ReadBack.counted reads_size (fun group hgroup => ?_) fun _ hreads => ?_
  · obtain ⟨topic, members⟩ := group
    have hmembers := ReadBack.counted reads_size (h _ hgroup) (hitem topic)
    exact (readBack_name topic).bind (hmembers.bind_pure fun members => (topic, members))
  · exact nomatch hreads [] 0 []

/-- Entries arranged by topic, of which each is read back under its own topic. -/
theorem readBack_arranged (topic : α → String) (partition : α → Int32) (entries : List α)
    {member : α → Encoder Unit} {item : String → Decoder α} {g : α → α}
    (h : ∀ entry, (member entry).ReadBack (item (topic entry)) (g entry))
    (hitem : ∀ topic a, ¬(item topic).Reads [] a) :
    (Encoder.topics (groupByTopic topic partition entries) member).ReadBack (topics item)
      ((arranged topic partition entries).map fun group => (group.1, group.2.map g)) := by
  rw [groupByTopic_eq]
  refine readBack_topics item (fun group hgroup entry hentry => ?_) hitem
  rw [← topic_of_mem_arranged hgroup hentry]
  exact h entry

/-- Entries that are read back as they are. -/
theorem readBack_entries (topic : α → String) (partition : α → Int32) (entries : List α)
    {member : α → Encoder Unit} {item : String → Decoder α}
    (h : ∀ entry, (member entry).ReadBack (item (topic entry)) entry)
    (hitem : ∀ topic a, ¬(item topic).Reads [] a) :
    (Encoder.topics (groupByTopic topic partition entries) member).ReadBack (topics item)
      (arranged topic partition entries) := by
  have hmap := readBack_arranged (g := id) topic partition entries h hitem
  simpa using hmap

theorem readBack_int32 (x : Int32) : (Encoder.int32 x).ReadBack Decoder.int32 x :=
  readBack_raw (reads_int32 x)

theorem readBack_int64 (x : Int64) : (Encoder.int64 x).ReadBack Decoder.int64 x :=
  readBack_raw (reads_int64 x)

theorem readBack_int16 (x : Int16) : (Encoder.int16 x).ReadBack Decoder.int16 x :=
  readBack_raw (reads_int16 x)

/-- A message set is read back as the records of its messages. -/
theorem readBack_messageSet (messages : List Message) :
    (Encoder.delimited (MessageSet.encode messages)).ReadBack messageSet
      (messages.map MessageSet.Record.ofMessage) := by
  refine (MessageSet.emits_encode messages).delimited.readBack fun hok hlength => ?_
  have hbody := Emission.failure_delimited.mp hok
  have hmembers := Emission.failure_each.mp hbody
  rw [Emission.bytes_delimited hbody, List.length_append] at hlength
  -- a set that fits into a frame has no message that does not
  have hfits : ∀ m ∈ messages, MessageSet.Fits m := fun m hm => by
    have hle := (sublist_flatMap (fun m => (MessageSet.messageEmission m).bytes) hm).length_le
    rw [Emission.bytes_each hmembers] at hlength
    exact MessageSet.fits_of_messageEmission (hmembers m hm) (by omega)
  rw [MessageSet.each_messageEmission hfits] at hlength
  rw [Emission.bytes_delimited hbody, MessageSet.each_messageEmission hfits,
    ← List.append_nil (_ ++ _)]
  -- the records that are found make up the whole set
  have hcovered : (messages.map MessageSet.Record.ofMessage).flatMap MessageSet.Record.bytes =
      messages.flatMap fun m => (MessageSet.Record.ofMessage m).bytes :=
    List.flatMap_map _ _ messages
  refine ((reads_size _ (by omega)).bind (reads_take _)).bind ?_
  simp only [MessageSet.records_flatMap hfits, if_pos hcovered]
  exact reads_pure _

/-- Where there is nothing to read, there is no partition. -/
theorem not_reads_partitionSet (run : Int32 × List MessageSet.Record) :
    ¬partitionSet.Reads [] run := fun hreads => nomatch hreads [] 0 []

/-- The partitions of a request to append, each with one message set. -/
theorem readBack_records (r : Produce.Request) :
    (Encoder.topics r.partitions fun (partition, payloads) => do
      Encoder.int32 partition
      Encoder.delimited (MessageSet.encode (payloads.flatMap Payload.messages))).ReadBack
        (topics fun _ => partitionSet) r.records := by
  rw [Produce.partitions_eq]
  let groups := (groupedBy Payload.topic r.payloads).map fun group =>
    (group.1, groupedBy Payload.partition group.2)
  let records : Int32 × List Payload → Int32 × List MessageSet.Record := fun run =>
    (run.1, Produce.recordsOf run.2)
  have hrun : ∀ group ∈ groups, ∀ run ∈ group.2,
      (Encoder.int32 run.1 >>= fun _ => Encoder.delimited
        (MessageSet.encode (run.2.flatMap Payload.messages))).ReadBack partitionSet (records run) :=
    fun _ _ run _ => (readBack_int32 run.1).bind
      ((readBack_messageSet _).bind_pure fun records => (run.1, records))
  have htopics := readBack_topics (fun _ => partitionSet) hrun fun _ => not_reads_partitionSet
  rw [List.map_map] at htopics
  exact htopics

/-! ### Bodies -/

theorem readBack_fetches (r : Fetch.Request) :
    (Encoder.topics (groupByTopic Fetch.Entry.topic Fetch.Entry.partitionId r.fetches)
      fun entry => do
        Encoder.int32 entry.partitionId
        Encoder.int64 entry.offset
        Encoder.int32 entry.maxBytes).ReadBack (topics fetchEntry)
          (arranged Fetch.Entry.topic Fetch.Entry.partitionId r.fetches) := by
  refine readBack_entries _ _ _ (fun entry => ?_) fun _ _ hreads => nomatch hreads [] 0 []
  exact (readBack_int32 entry.partitionId).bind ((readBack_int64 entry.offset).bind
    ((readBack_int32 entry.maxBytes).bind_pure fun maxBytes => { entry with maxBytes }))

theorem readBack_offsets (r : Offset.Request) :
    (Encoder.topics (groupByTopic Offset.Entry.topic Offset.Entry.partitionId r.offsets)
      fun entry => do
        Encoder.int32 entry.partitionId
        Encoder.int64 entry.time
        Encoder.int32 entry.maxOffsets).ReadBack (topics offsetEntry)
          (arranged Offset.Entry.topic Offset.Entry.partitionId r.offsets) := by
  refine readBack_entries _ _ _ (fun entry => ?_) fun _ _ hreads => nomatch hreads [] 0 []
  exact (readBack_int32 entry.partitionId).bind ((readBack_int64 entry.time).bind
    ((readBack_int32 entry.maxOffsets).bind_pure fun maxOffsets => { entry with maxOffsets }))

/-- The note of a position is read back as far as it is stated. -/
theorem readBack_commits (r : OffsetCommit.Request) :
    (Encoder.topics
      (groupByTopic OffsetCommit.Entry.topic OffsetCommit.Entry.partitionId r.commits)
      fun entry => do
        Encoder.int32 entry.partitionId
        Encoder.int64 entry.offset
        Encoder.int64 entry.timestamp
        Encoder.string entry.metadata).ReadBack (topics commitEntry)
          ((arranged OffsetCommit.Entry.topic OffsetCommit.Entry.partitionId r.commits).map
            fun (topic, entries) => (topic, entries.map OffsetCommit.Entry.received)) := by
  refine readBack_arranged _ _ _ (fun entry => ?_) fun _ _ hreads => nomatch hreads [] 0 []
  exact (readBack_int32 entry.partitionId).bind ((readBack_int64 entry.offset).bind
    ((readBack_int64 entry.timestamp).bind ((readBack_text entry.metadata).bind_pure
      fun metadata => { entry with metadata })))

theorem readBack_positions (r : OffsetFetch.Request) :
    (Encoder.topics (groupByTopic OffsetFetch.Entry.topic OffsetFetch.Entry.partitionId r.topics)
      fun entry => Encoder.int32 entry.partitionId).ReadBack (topics positionEntry)
        (arranged OffsetFetch.Entry.topic OffsetFetch.Entry.partitionId r.topics) := by
  refine readBack_entries _ _ _ (fun entry => ?_) fun _ _ hreads => nomatch hreads [] 0 []
  exact (readBack_int32 entry.partitionId).bind_pure fun partitionId => { entry with partitionId }

/-- What a request writes behind its header. -/
def bodyOf : Request → Encoder Unit
  | .produce r => r.body
  | .fetch r => r.body
  | .offset r => r.body
  | .metadata r => r.body
  | .offsetCommit r => r.body
  | .offsetFetch r => r.body
  | .consumerMetadata r => r.body

/-- The body of every kind of request is read back under the number of its kind. -/
theorem readBack_bodyOf (r : Request) :
    (bodyOf r).ReadBack (body r.kind.apiKey.code) r.received := by
  cases r with
  | produce r =>
    exact (readBack_int16 r.acks).bind ((readBack_int32 r.timeoutMs).bind
      ((readBack_records r).bind_pure (Body.produce r.acks r.timeoutMs)))
  | fetch r =>
    exact (readBack_int32 (-1)).bind ((readBack_int32 r.maxWaitTime).bind
      ((readBack_int32 r.minBytes).bind
        ((readBack_fetches r).bind_pure (Body.fetch (-1) r.maxWaitTime r.minBytes))))
  | offset r =>
    exact (readBack_int32 (-1)).bind ((readBack_offsets r).bind_pure (Body.offset (-1)))
  | metadata r =>
    have hname : ∀ topic ∈ r.topics,
        (Encoder.string (some topic)).ReadBack name topic := fun topic _ => readBack_name topic
    have hnames := ReadBack.counted reads_size hname fun _ hreads => nomatch hreads [] 0 []
    rw [List.map_id'] at hnames
    exact hnames.bind_pure Body.metadata
  | offsetCommit r =>
    exact (readBack_name r.group).bind ((readBack_commits r).bind_pure (Body.offsetCommit r.group))
  | offsetFetch r =>
    exact (readBack_name r.group).bind ((readBack_positions r).bind_pure (Body.offsetFetch r.group))
  | consumerMetadata r => exact (readBack_name r.group).bind_pure Body.consumerMetadata

/-! ### Whole frames -/

/-- The frame of a request as it is received, if it has this many bytes. -/
def frameOf (r : Request) (size : Nat) : Frame :=
  ⟨Int32.ofNat (size - 4), r.kind.apiKey.code, 0, r.header.correlationId,
    stated r.header.clientId, r.received⟩

theorem readBack_framed (r : Request) :
    (Encoder.framed r.kind.apiKey r.header (bodyOf r)).ReadBack frame
      (frameOf r (Encoder.framed r.kind.apiKey r.header (bodyOf r)).emission.bytes.length) := by
  refine ReadBack.delimited (f := behindLength) (a := fun length => ⟨length, r.kind.apiKey.code, 0,
    r.header.correlationId, stated r.header.clientId, r.received⟩) fun length => ?_
  exact (readBack_int16 r.kind.apiKey.code).bind ((readBack_int16 0).bind
    ((readBack_int32 r.header.correlationId).bind ((readBack_text r.header.clientId).bind
      ((readBack_bodyOf r).bind_pure (Frame.mk length r.kind.apiKey.code 0 r.header.correlationId
        (stated r.header.clientId))))))

/-- A request is read back. One that is refused has nothing to be read. -/
theorem readBack_encode (r : Request) :
    r.encode.ReadBack frame (frameOf r r.encode.emission.bytes.length) := by
  have hframed := readBack_framed r
  cases r with
  | produce r =>
    cases hfind : r.payloads.find? fun payload => payload.codec ≠ .none with
    | some payload =>
      rw [Request.encode_produce_of_some hfind]
      exact (emits_throw _).readBack fun hok => absurd hok (Option.some_ne_none _)
    | none =>
      rw [Request.encode_produce_of_none hfind]
      exact hframed
  | fetch r => exact hframed
  | offset r => exact hframed
  | metadata r => exact hframed
  | offsetCommit r => exact hframed
  | offsetFetch r => exact hframed
  | consumerMetadata r => exact hframed

/-- The frame of a request is read to its last byte. -/
theorem read_frame {r : Request} {bytes : Bytes} (hframe : r.frame = .ok bytes)
    (hlength : bytes.length < lengthLimit) :
    frame.run (.ofBytes bytes) = .ok (frameOf r bytes.length) ⟨bytes, bytes.length, []⟩ := by
  have hread := readBack_encode r
  have hemission : r.encode.emission = ⟨bytes, none⟩ := hread.emits.eq_of_encode hframe
  rw [hemission] at hread
  have hreads := hread.reads
  rw [hemission] at hreads
  exact (hreads rfl hlength).run

/-- Whatever has been read as a frame starts with a length field. -/
theorem toInt_length {bytes : Bytes} {f : Frame} {c : Cursor}
    (hrun : frame.run (.ofBytes bytes) = .ok f c) (hlength : bytes.length < lengthLimit) :
    (Int32.ofNat (bytes.length - 4)).toInt + 4 = bytes.length := by
  have hfield : 4 ≤ bytes.length := by
    by_contra hlt
    have hshort : take 4 (.ofBytes bytes) = .error (.truncated 4 bytes.length) (.ofBytes bytes) :=
      take_short (Nat.lt_of_not_le hlt)
    change EStateM.bind (EStateM.bind (take 4) _) _ _ = _ at hrun
    simp [EStateM.bind, hshort] at hrun
  rw [Int32.toInt_ofNat_of_lt (Nat.lt_of_le_of_lt (Nat.sub_le _ _) hlength)]
  omega

end Reception

/-! ### What a frame tells -/

theorem perm_of_arranged_map {topic : α → String} {partition : α → Int32} {g : α → β}
    {entries entries' : List α}
    (h : (arranged topic partition entries).map (fun (name, members) => (name, members.map g)) =
      (arranged topic partition entries').map fun (name, members) => (name, members.map g)) :
    (entries.map g).Perm (entries'.map g) := by
  have hperm : ∀ entries : List α,
      (((arranged topic partition entries).map fun (name, members) =>
        (name, members.map g)).flatMap Prod.snd).Perm (entries.map g) := fun entries => by
    rw [List.flatMap_map, ← List.map_flatMap]
    exact (perm_arranged topic partition entries).map g
  exact (hperm entries).symm.trans (h ▸ hperm entries')

theorem perm_of_arranged {topic : α → String} {partition : α → Int32} {entries entries' : List α}
    (h : arranged topic partition entries = arranged topic partition entries') :
    entries.Perm entries' :=
  (perm_arranged topic partition entries).symm.trans (h ▸ perm_arranged topic partition entries')

namespace Request

/-- Requests of which the same is received say the same. -/
theorem saysSame_of_received {r r' : Request} (hheader : r.header.received = r'.header.received)
    (h : r.received = r'.received) : r.SaysSame r' := by
  cases r <;> cases r' <;> try contradiction
  case produce.produce r r' =>
    obtain ⟨hacks, htimeout, hrecords⟩ := Reception.Body.produce.inj h
    exact ⟨hheader, hacks, htimeout, hrecords⟩
  case fetch.fetch r r' =>
    obtain ⟨-, hwait, hmin, hfetches⟩ := Reception.Body.fetch.inj h
    exact ⟨hheader, hwait, hmin, perm_of_arranged hfetches⟩
  case offset.offset r r' =>
    exact ⟨hheader, perm_of_arranged (Reception.Body.offset.inj h).2⟩
  case metadata.metadata r r' => exact ⟨hheader, Reception.Body.metadata.inj h⟩
  case offsetCommit.offsetCommit r r' =>
    obtain ⟨hgroup, hcommits⟩ := Reception.Body.offsetCommit.inj h
    exact ⟨hheader, hgroup, perm_of_arranged_map hcommits⟩
  case offsetFetch.offsetFetch r r' =>
    obtain ⟨hgroup, htopics⟩ := Reception.Body.offsetFetch.inj h
    exact ⟨hheader, hgroup, perm_of_arranged htopics⟩
  case consumerMetadata.consumerMetadata r r' =>
    exact ⟨hheader, Reception.Body.consumerMetadata.inj h⟩

/-- The frame of a request, read the way a broker reads it, is read to its last byte and tells the
request: its length, the number of its kind, the version, the header, and the body with entries
arranged by topic. So requests with the same frame say the same. -/
theorem run_frame (r : Request) {bytes : Bytes} (hframe : r.frame = .ok bytes)
    (hlength : bytes.length < lengthLimit) :
    (∃ length : Int32, length.toInt + 4 = bytes.length ∧
      Reception.frame.run (.ofBytes bytes) =
        .ok ⟨length, r.kind.apiKey.code, 0, r.header.correlationId, stated r.header.clientId,
          r.received⟩ ⟨bytes, bytes.length, []⟩) ∧
    ∀ r' : Request, r'.frame = .ok bytes → r.SaysSame r' := by
  have hrun := Reception.read_frame hframe hlength
  refine ⟨⟨_, Reception.toInt_length hrun hlength, hrun⟩, fun r' hframe' => ?_⟩
  have hrun' := Reception.read_frame hframe' hlength
  rw [hrun] at hrun'
  obtain ⟨-, -, -, hcorrelation, hclient, hreceived⟩ :=
    Reception.Frame.mk.inj (EStateM.Result.ok.inj hrun').1
  refine saysSame_of_received ?_ hreceived
  simp only [RequestHeader.received, hcorrelation, hclient]

/-- Entries of one topic come together, and a client without a name has none. -/
theorem run_frame_interleaved :
    ∃ (bytes : Bytes) (length : Int32), (Request.offsetFetch ⟨⟨7, some ""⟩, "g",
        [⟨"b", 1⟩, ⟨"a", 0⟩, ⟨"b", 2⟩, ⟨"b", 1⟩]⟩).frame = .ok bytes ∧
      bytes.length = 51 ∧ length.toInt + 4 = bytes.length ∧
      Reception.frame.run (.ofBytes bytes) =
        .ok ⟨length, 9, 0, 7, none,
          .offsetFetch "g" [("b", [⟨"b", 1⟩, ⟨"b", 1⟩, ⟨"b", 2⟩]), ("a", [⟨"a", 0⟩])]⟩
          ⟨bytes, bytes.length, []⟩ := by
  have hframe : (Request.offsetFetch ⟨⟨7, some ""⟩, "g",
      [⟨"b", 1⟩, ⟨"a", 0⟩, ⟨"b", 2⟩, ⟨"b", 1⟩]⟩).frame =
        .ok [0, 0, 0, 47, 0, 9, 0, 0, 0, 0, 0, 7, 255, 255, 0, 1, 103, 0, 0, 0, 2,
          0, 1, 98, 0, 0, 0, 3, 0, 0, 0, 1, 0, 0, 0, 1, 0, 0, 0, 2,
          0, 1, 97, 0, 0, 0, 1, 0, 0, 0, 0] := by
    simp only [frame, encode, OffsetFetch.Request.encode, OffsetFetch.Request.body,
      groupByTopic_eq]
    decide +kernel
  obtain ⟨⟨length, hlength, hrun⟩, -⟩ := run_frame _ hframe (by decide)
  exact ⟨_, length, hframe, rfl, hlength, hrun⟩

end Request

namespace Produce

/-- The messages of all payloads of a request for one partition, in order. -/
def Request.messagesOf (r : Request) (topic : String) (partition : Int32) : List Message :=
  (r.payloads.filter fun payload => payload.topic = topic ∧ payload.partition = partition).flatMap
    Payload.messages

/-- Every partition that a payload is for has records, those of its messages. -/
theorem Request.mem_records {r : Request} {topic : String} {partition : Int32}
    {records : List MessageSet.Record} :
    (∃ partitions, (topic, partitions) ∈ r.records ∧ (partition, records) ∈ partitions) ↔
      (∃ payload ∈ r.payloads, payload.topic = topic ∧ payload.partition = partition) ∧
        records = (r.messagesOf topic partition).map MessageSet.Record.ofMessage := by
  -- the two passes of grouping choose what one choice by topic and partition does
  have hfilter : (r.payloads.filter (·.topic = topic)).filter (·.partition = partition) =
      r.payloads.filter fun payload => payload.topic = topic ∧ payload.partition = partition := by
    simp [List.filter_filter, and_comm]
  rw [messagesOf, ← hfilter]
  constructor
  · rintro ⟨partitions, hpartitions, hrecords⟩
    obtain ⟨-, rfl⟩ := (mem_map_groupedBy (f := partitionRecords)).mp hpartitions
    obtain ⟨⟨payload, hpayload, hpartition⟩, rfl⟩ :=
      (mem_map_groupedBy (f := recordsOf)).mp hrecords
    obtain ⟨hpayload, htopic⟩ := List.mem_filter.mp hpayload
    exact ⟨⟨payload, hpayload, of_decide_eq_true htopic, hpartition⟩, rfl⟩
  · rintro ⟨⟨payload, hpayload, htopic, hpartition⟩, rfl⟩
    have hmem : payload ∈ r.payloads.filter (·.topic = topic) :=
      List.mem_filter.mpr ⟨hpayload, decide_eq_true htopic⟩
    exact ⟨_, (mem_map_groupedBy (f := partitionRecords)).mpr ⟨⟨payload, hpayload, htopic⟩, rfl⟩,
      (mem_map_groupedBy (f := recordsOf)).mpr ⟨⟨payload, hmem, hpartition⟩, rfl⟩⟩

/-- A request to append, read the way a broker reads it, is read to its last byte and has one
message set for each partition that a payload is for and no other. The set consists of the records
of the messages of all payloads for its partition, in order. -/
theorem run_frame_records (r : Request) {bytes : Bytes}
    (hframe : (BrokerWire.Request.produce r).frame = .ok bytes)
    (hlength : bytes.length < lengthLimit) :
    ∃ (length : Int32) (topics : List (String × List (Int32 × List MessageSet.Record))),
      Reception.frame.run (.ofBytes bytes) =
        .ok ⟨length, 0, 0, r.header.correlationId, stated r.header.clientId,
          .produce r.acks r.timeoutMs topics⟩ ⟨bytes, bytes.length, []⟩ ∧
      topics.map Prod.fst = (r.payloads.map Payload.topic).eraseDups ∧
      (topics.map Prod.fst).Nodup ∧
      (∀ topic partitions, (topic, partitions) ∈ topics →
        partitions.map Prod.fst =
          ((r.payloads.filter (·.topic = topic)).map Payload.partition).eraseDups ∧
        (partitions.map Prod.fst).Nodup) ∧
      ∀ topic partition records,
        (∃ partitions, (topic, partitions) ∈ topics ∧ (partition, records) ∈ partitions) ↔
          (∃ payload ∈ r.payloads, payload.topic = topic ∧ payload.partition = partition) ∧
            records = (r.messagesOf topic partition).map MessageSet.Record.ofMessage := by
  have hkeys : r.records.map Prod.fst = (r.payloads.map Payload.topic).eraseDups := by
    rw [Request.records, List.map_map]
    exact map_fst_groupedBy _ _
  refine ⟨_, r.records, Reception.read_frame hframe hlength, hkeys, hkeys ▸ nodup_eraseDups _,
    fun topic partitions hmem => ?_, fun _ _ _ => Request.mem_records⟩
  obtain ⟨-, rfl⟩ := (mem_map_groupedBy (f := partitionRecords)).mp hmem
  rw [partitionRecords, List.map_map]
  exact ⟨map_fst_groupedBy _ _, nodup_groupedBy _ _⟩

/-- Payloads for one partition share its set, and a partition without messages has a set too. -/
theorem run_frame_records_interleaved :
    ∃ bytes length topics, (BrokerWire.Request.produce ⟨⟨7, none⟩, -1, 250,
        [⟨"t", 1, .none, [{ attributes := 1 }]⟩, ⟨"t", 2, .none, []⟩,
          ⟨"t", 1, .none, [{}]⟩]⟩).frame = .ok bytes ∧
      Reception.frame.run (.ofBytes bytes) =
        .ok ⟨length, 0, 0, 7, none, .produce (-1) 250 topics⟩ ⟨bytes, bytes.length, []⟩ ∧
      topics.map Prod.fst = ["t"] ∧
      (∃ partitions, ("t", partitions) ∈ topics ∧
        (1, [MessageSet.Record.ofMessage { attributes := 1 }, MessageSet.Record.ofMessage {}]) ∈
          partitions) ∧
      ∃ partitions, ("t", partitions) ∈ topics ∧ (2, []) ∈ partitions := by
  obtain ⟨bytes, hframe, hlength⟩ : ∃ bytes, (BrokerWire.Request.produce ⟨⟨7, none⟩, -1, 250,
      [⟨"t", 1, .none, [{ attributes := 1 }]⟩, ⟨"t", 2, .none, []⟩,
        ⟨"t", 1, .none, [{}]⟩]⟩).frame = .ok bytes ∧ bytes.length < lengthLimit := by
    simp only [BrokerWire.Request.frame, BrokerWire.Request.encode, Request.encode, Request.body,
      partitions_eq]
    refine ⟨_, rfl, ?_⟩
    decide +kernel
  obtain ⟨length, topics, hrun, htopics, -, -, hrecords⟩ := run_frame_records _ hframe hlength
  refine ⟨bytes, length, topics, hframe, hrun, htopics, ?_, ?_⟩
  · exact (hrecords "t" 1 _).mpr ⟨by decide, rfl⟩
  · exact (hrecords "t" 2 _).mpr ⟨by decide, rfl⟩

end Produce

end BrokerWire
