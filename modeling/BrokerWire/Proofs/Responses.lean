import BrokerWire.Proofs.Layout
import BrokerWire.Request

/-!
# Layouts of responses

What a broker sends back to each kind of request, as layouts. All kinds but two list topics and
under each topic its partitions, and each partition becomes a record with the name of its topic.
Main statement: `RequestKind.decode_eq_ok_iff_responseLayout`, the bytes that decode are those that
start with a response of the kind, and what they decode to is what the layout says.
-/

namespace BrokerWire

namespace Layout

/-- A topic's name and its partitions behind their number. -/
inductive Topic (partition : String → Bytes → α → Prop) : Bytes → List α → Prop
  | mk {front back : Bytes} {name : String} {as : List α} (hname : Name front name)
    (has : Counted (partition name) back as) : Topic partition (front ++ back) as

/-- Topics behind their number. Their partitions come in the order of the bytes. -/
inductive Topics (partition : String → Bytes → α → Prop) : Bytes → List α → Prop
  | mk {bytes : Bytes} {groups : List (List α)} (hgroups : Counted (Topic partition) bytes groups) :
    Topics partition bytes groups.flatten

/-- One value, as a list. -/
inductive One (layout : Bytes → α → Prop) : Bytes → List α → Prop
  | mk {bytes : Bytes} {a : α} (h : layout bytes a) : One layout bytes [a]

/-- What answers a request, behind the correlation id of the request. -/
inductive Reply (layout : Bytes → α → Prop) : Bytes → α → Prop
  | mk (correlationId : Int32) {bytes : Bytes} {a : α} (h : layout bytes a) :
    Reply layout (BigEndian.ofInt32 correlationId ++ bytes) a

end Layout

open BigEndian in
/-- What the broker reports for a partition. -/
inductive Produce.PartitionLayout (topic : String) : Bytes → Produce.Response → Prop
  | mk (partitionId : Int32) (code : Int16) (offset : Int64) :
    PartitionLayout topic (ofInt32 partitionId ++ (ofInt16 code ++ ofInt64 offset))
      { topic, partitionId, error := .ofCode code, offset }

open BigEndian in
/-- What the broker returns for a partition, with a message set behind its size. A negative size
counts as zero. -/
inductive Fetch.PartitionLayout (topic : String) : Bytes → Fetch.Response → Prop
  | mk (partitionId : Int32) (code : Int16) (highWaterMark : Int64) (size : Int32) (set : Bytes)
    {messages : List Message} (hsize : set.length = size.toNatClampNeg)
    (hset : MessageSet.decode set partitionId = .ok messages) :
    PartitionLayout topic
      (ofInt32 partitionId ++ (ofInt16 code ++ (ofInt64 highWaterMark ++ (ofInt32 size ++ set))))
      { topic, partitionId, error := .ofCode code, highWaterMark, messages }

open BigEndian in
/-- What the broker returns for a partition, with the offsets behind their number. -/
inductive Offset.PartitionLayout (topic : String) : Bytes → Offset.Response → Prop
  | mk (partitionId : Int32) (code : Int16) {bytes : Bytes} {offsets : List Int64}
    (hoffsets : Layout.Counted (fun bytes offset => bytes = ofInt64 offset) bytes offsets) :
    PartitionLayout topic (ofInt32 partitionId ++ (ofInt16 code ++ bytes))
      { topic, partitionId, error := .ofCode code, offsets }

open BigEndian in
/-- What the broker reports for a partition. -/
inductive OffsetCommit.PartitionLayout (topic : String) : Bytes → OffsetCommit.Response → Prop
  | mk (partitionId : Int32) (code : Int16) :
    PartitionLayout topic (ofInt32 partitionId ++ ofInt16 code)
      { topic, partitionId, error := .ofCode code }

open BigEndian in
/-- What the broker returns for a partition. The code comes last. -/
inductive OffsetFetch.PartitionLayout (topic : String) : Bytes → OffsetFetch.Response → Prop
  | mk (partitionId : Int32) (offset : Int64) {bytes : Bytes} {metadata : Option String}
    (code : Int16) (hmetadata : Layout.Text bytes metadata) :
    PartitionLayout topic (ofInt32 partitionId ++ (ofInt64 offset ++ (bytes ++ ofInt16 code)))
      { topic, partitionId, offset, metadata, error := .ofCode code }

namespace Metadata

open BigEndian in
/-- A broker. -/
inductive BrokerLayout : Bytes → Broker → Prop
  | mk (brokerId : Int32) {bytes : Bytes} {host : String} (port : Int32)
    (hhost : Layout.Name bytes host) :
    BrokerLayout (ofInt32 brokerId ++ (bytes ++ ofInt32 port)) { brokerId, host, port }

open BigEndian in
/-- The state of a partition. The code comes first. -/
inductive PartitionLayout : Bytes → Partition → Prop
  | mk (code : Int16) (partitionId leaderId : Int32) {front back : Bytes}
    {replicas isrs : List Int32}
    (hreplicas : Layout.Counted (fun bytes id => bytes = ofInt32 id) front replicas)
    (hisrs : Layout.Counted (fun bytes id => bytes = ofInt32 id) back isrs) :
    PartitionLayout (ofInt16 code ++ (ofInt32 partitionId ++ (ofInt32 leaderId ++ (front ++ back))))
      { error := .ofCode code, partitionId, leaderId, replicas, isrs }

open BigEndian in
/-- The state of a topic. The code comes in front of the name. -/
inductive TopicLayout : Bytes → Topic → Prop
  | mk (code : Int16) {front back : Bytes} {name : String} {partitions : List Partition}
    (hname : Layout.Name front name)
    (hpartitions : Layout.Counted PartitionLayout back partitions) :
    TopicLayout (ofInt16 code ++ (front ++ back)) { error := .ofCode code, name, partitions }

open BigEndian in
/-- The state of the cluster. The correlation id is part of it. -/
inductive ResponseLayout : Bytes → Response → Prop
  | mk (correlationId : Int32) {front back : Bytes} {brokers : List Broker} {topics : List Topic}
    (hbrokers : Layout.Counted BrokerLayout front brokers)
    (htopics : Layout.Counted TopicLayout back topics) :
    ResponseLayout (ofInt32 correlationId ++ (front ++ back)) { correlationId, brokers, topics }

end Metadata

open BigEndian in
/-- The coordinator of a group. -/
inductive ConsumerMetadata.CoordinatorLayout : Bytes → ConsumerMetadata.Response → Prop
  | mk (code : Int16) (coordinatorId : Int32) {bytes : Bytes} {coordinatorHost : String}
    (coordinatorPort : Int32) (hhost : Layout.Name bytes coordinatorHost) :
    CoordinatorLayout
      (ofInt16 code ++ (ofInt32 coordinatorId ++ (bytes ++ ofInt32 coordinatorPort)))
      { error := .ofCode code, coordinatorId, coordinatorHost, coordinatorPort }

/-- What a broker sends back to a request of each kind. -/
def RequestKind.ResponseLayout (kind : RequestKind) (bytes : Bytes) (rs : Responses) : Prop :=
  match kind with
  | produce =>
    ∃ found, Layout.Reply (Layout.Topics Produce.PartitionLayout) bytes found ∧ rs = .produce found
  | fetch =>
    ∃ found, Layout.Reply (Layout.Topics Fetch.PartitionLayout) bytes found ∧ rs = .fetch found
  | offset =>
    ∃ found, Layout.Reply (Layout.Topics Offset.PartitionLayout) bytes found ∧ rs = .offset found
  | metadata => ∃ found, Layout.One Metadata.ResponseLayout bytes found ∧ rs = .metadata found
  | offsetCommit =>
    ∃ found, Layout.Reply (Layout.Topics OffsetCommit.PartitionLayout) bytes found ∧
      rs = .offsetCommit found
  | offsetFetch =>
    ∃ found, Layout.Reply (Layout.Topics OffsetFetch.PartitionLayout) bytes found ∧
      rs = .offsetFetch found
  | consumerMetadata =>
    ∃ found, Layout.Reply (Layout.One ConsumerMetadata.CoordinatorLayout) bytes found ∧
      rs = .consumerMetadata found

/-! ### Topics and their partitions -/

namespace Decoder

theorem recognizes_topics {partition : String → Decoder α} {layout : String → Bytes → α → Prop}
    (h : ∀ topic, (partition topic).Recognizes (layout topic)) :
    (topics partition).Recognizes (Layout.Topics layout) := by
  have htopic : (name >>= fun topic => counted (partition topic)).Recognizes
      (Layout.Topic layout) := by
    refine (recognizes_name.bind fun topic => recognizes_counted (h topic)).congr
      fun bytes as => ⟨?_, ?_⟩
    · rintro ⟨front, name, back, hname, has, rfl⟩
      exact .mk hname has
    · rintro ⟨hname, has⟩
      exact ⟨_, _, _, hname, has, rfl⟩
  refine ((recognizes_counted htopic).bind_pure List.flatten).congr fun bytes rs => ⟨?_, ?_⟩
  · rintro ⟨groups, hgroups, rfl⟩
    exact .mk hgroups
  · rintro ⟨hgroups⟩
    exact ⟨_, hgroups, rfl⟩

theorem Recognizes.reply {d : Decoder α} {layout : Bytes → α → Prop} (h : d.Recognizes layout) :
    (int32 >>= fun _ => d).Recognizes (Layout.Reply layout) := by
  refine (recognizes_int32.bind fun _ => h).congr fun bytes a => ⟨?_, ?_⟩
  · rintro ⟨_, correlationId, back, rfl, hback, rfl⟩
    exact .mk correlationId hback
  · rintro ⟨correlationId, hback⟩
    exact ⟨_, correlationId, _, rfl, hback, rfl⟩

end Decoder

/-! ### Fields in the order of the bytes

Each layout is taken apart into the parts that the decoder reads, and put together from them. -/

open Decoder

theorem Produce.recognizes_responses :
    Produce.responses.Recognizes (Layout.Reply (Layout.Topics PartitionLayout)) := by
  refine (recognizes_topics fun topic => (recognizes_int32.bind fun _ =>
    recognizes_errorCode.bind fun _ => recognizes_int64.bind_pure _).congr
      fun bytes r => ⟨?_, ?_⟩).reply
  · rintro ⟨_, partitionId, _, rfl, ⟨_, _, _, ⟨code, rfl, rfl⟩, ⟨offset, rfl, rfl⟩, rfl⟩, rfl⟩
    exact .mk partitionId code offset
  · rintro ⟨partitionId, code, offset⟩
    exact ⟨_, _, _, rfl, ⟨_, _, _, ⟨code, rfl, rfl⟩, ⟨offset, rfl, rfl⟩, rfl⟩, rfl⟩

/-- The messages of a set that is accepted. Nothing more is read for them. -/
theorem Fetch.recognizes_messages (set : Bytes) (partitionId : Int32) :
    (match MessageSet.decode set partitionId with
      | .ok messages => pure messages
      | .error e => throw e : Decoder (List Message)).Recognizes
      fun bytes messages => bytes = [] ∧ MessageSet.decode set partitionId = .ok messages := by
  cases MessageSet.decode set partitionId with
  | ok messages =>
    refine (recognizes_pure messages).congr fun bytes found => ?_
    rw [Except.ok.injEq, eq_comm (a := messages)]
  | error e => exact (recognizes_throw e).congr fun bytes messages => by simp

theorem Fetch.recognizes_messageSet (partitionId : Int32) :
    (messageSet partitionId).Recognizes fun bytes messages => ∃ (size : Int32) (set : Bytes),
      set.length = size.toNatClampNeg ∧ MessageSet.decode set partitionId = .ok messages ∧
        bytes = BigEndian.ofInt32 size ++ set := by
  refine (recognizes_count.bind fun n => (recognizes_take n).bind fun set =>
    recognizes_messages set partitionId).congr fun bytes messages => ⟨?_, ?_⟩
  · rintro ⟨_, _, _, ⟨size, rfl, rfl⟩, ⟨_, set, _, ⟨hsize, rfl⟩, ⟨rfl, hset⟩, rfl⟩, rfl⟩
    exact ⟨size, set, hsize, hset, by rw [List.append_nil]⟩
  · rintro ⟨size, set, hsize, hset, rfl⟩
    exact ⟨_, _, _, ⟨size, rfl, rfl⟩,
      ⟨_, set, [], ⟨hsize, rfl⟩, ⟨rfl, hset⟩, (List.append_nil set).symm⟩, rfl⟩

theorem Fetch.recognizes_responses :
    Fetch.responses.Recognizes (Layout.Reply (Layout.Topics PartitionLayout)) := by
  refine (recognizes_topics fun topic => (recognizes_int32.bind fun partitionId =>
    recognizes_errorCode.bind fun _ => recognizes_int64.bind fun _ =>
      (recognizes_messageSet partitionId).bind_pure _).congr fun bytes r => ⟨?_, ?_⟩).reply
  · rintro ⟨_, partitionId, _, rfl, ⟨_, _, _, ⟨code, rfl, rfl⟩, ⟨_, highWaterMark, _, rfl,
      ⟨messages, ⟨size, set, hsize, hset, rfl⟩, rfl⟩, rfl⟩, rfl⟩, rfl⟩
    exact .mk partitionId code highWaterMark size set hsize hset
  · rintro ⟨partitionId, code, highWaterMark, size, set, hsize, hset⟩
    exact ⟨_, _, _, rfl, ⟨_, _, _, ⟨code, rfl, rfl⟩, ⟨_, _, _, rfl,
      ⟨_, ⟨size, set, hsize, hset, rfl⟩, rfl⟩, rfl⟩, rfl⟩, rfl⟩

theorem Offset.recognizes_responses :
    Offset.responses.Recognizes (Layout.Reply (Layout.Topics PartitionLayout)) := by
  refine (recognizes_topics fun topic => (recognizes_int32.bind fun _ =>
    recognizes_errorCode.bind fun _ => (recognizes_counted recognizes_int64).bind_pure _).congr
      fun bytes r => ⟨?_, ?_⟩).reply
  · rintro ⟨_, partitionId, _, rfl, ⟨_, _, _, ⟨code, rfl, rfl⟩, ⟨offsets, hoffsets, rfl⟩, rfl⟩,
      rfl⟩
    exact .mk partitionId code hoffsets
  · rintro ⟨partitionId, code, hoffsets⟩
    exact ⟨_, _, _, rfl, ⟨_, _, _, ⟨code, rfl, rfl⟩, ⟨_, hoffsets, rfl⟩, rfl⟩, rfl⟩

theorem OffsetCommit.recognizes_responses :
    OffsetCommit.responses.Recognizes (Layout.Reply (Layout.Topics PartitionLayout)) := by
  refine (recognizes_topics fun topic => (recognizes_int32.bind fun _ =>
    recognizes_errorCode.bind_pure _).congr fun bytes r => ⟨?_, ?_⟩).reply
  · rintro ⟨_, partitionId, _, rfl, ⟨_, ⟨code, rfl, rfl⟩, rfl⟩, rfl⟩
    exact .mk partitionId code
  · rintro ⟨partitionId, code⟩
    exact ⟨_, _, _, rfl, ⟨_, ⟨code, rfl, rfl⟩, rfl⟩, rfl⟩

theorem OffsetFetch.recognizes_responses :
    OffsetFetch.responses.Recognizes (Layout.Reply (Layout.Topics PartitionLayout)) := by
  refine (recognizes_topics fun topic => (recognizes_int32.bind fun _ =>
    recognizes_int64.bind fun _ => recognizes_string.bind fun _ =>
      recognizes_errorCode.bind_pure _).congr fun bytes r => ⟨?_, ?_⟩).reply
  · rintro ⟨_, partitionId, _, rfl, ⟨_, offset, _, rfl, ⟨_, metadata, _, hmetadata,
      ⟨_, ⟨code, rfl, rfl⟩, rfl⟩, rfl⟩, rfl⟩, rfl⟩
    exact .mk partitionId offset code hmetadata
  · rintro ⟨partitionId, offset, code, hmetadata⟩
    exact ⟨_, _, _, rfl, ⟨_, _, _, rfl, ⟨_, _, _, hmetadata, ⟨_, ⟨code, rfl, rfl⟩, rfl⟩, rfl⟩,
      rfl⟩, rfl⟩

theorem ConsumerMetadata.recognizes_responses :
    ConsumerMetadata.responses.Recognizes
      (Layout.Reply (Layout.One CoordinatorLayout)) := by
  refine ((recognizes_errorCode.bind fun _ => recognizes_int32.bind fun _ =>
    recognizes_name.bind fun _ => recognizes_int32.bind_pure _).congr
      fun bytes rs => ⟨?_, ?_⟩).reply
  · rintro ⟨_, _, _, ⟨code, rfl, rfl⟩, ⟨_, coordinatorId, _, rfl, ⟨_, coordinatorHost, _, hhost,
      ⟨coordinatorPort, rfl, rfl⟩, rfl⟩, rfl⟩, rfl⟩
    exact .mk (.mk code coordinatorId coordinatorPort hhost)
  · rintro ⟨code, coordinatorId, coordinatorPort, hhost⟩
    exact ⟨_, _, _, ⟨code, rfl, rfl⟩, ⟨_, _, _, rfl, ⟨_, _, _, hhost, ⟨_, rfl, rfl⟩, rfl⟩, rfl⟩,
      rfl⟩

namespace Metadata

theorem recognizes_broker : broker.Recognizes BrokerLayout := by
  refine (recognizes_int32.bind fun _ => recognizes_name.bind fun _ =>
    recognizes_int32.bind_pure _).congr fun bytes b => ⟨?_, ?_⟩
  · rintro ⟨_, brokerId, _, rfl, ⟨_, host, _, hhost, ⟨port, rfl, rfl⟩, rfl⟩, rfl⟩
    exact .mk brokerId port hhost
  · rintro ⟨brokerId, port, hhost⟩
    exact ⟨_, _, _, rfl, ⟨_, _, _, hhost, ⟨_, rfl, rfl⟩, rfl⟩, rfl⟩

theorem recognizes_partition : partition.Recognizes PartitionLayout := by
  refine (recognizes_errorCode.bind fun _ => recognizes_int32.bind fun _ =>
    recognizes_int32.bind fun _ => (recognizes_counted recognizes_int32).bind fun _ =>
      (recognizes_counted recognizes_int32).bind_pure _).congr fun bytes p => ⟨?_, ?_⟩
  · rintro ⟨_, _, _, ⟨code, rfl, rfl⟩, ⟨_, partitionId, _, rfl, ⟨_, leaderId, _, rfl,
      ⟨_, replicas, _, hreplicas, ⟨isrs, hisrs, rfl⟩, rfl⟩, rfl⟩, rfl⟩, rfl⟩
    exact .mk code partitionId leaderId hreplicas hisrs
  · rintro ⟨code, partitionId, leaderId, hreplicas, hisrs⟩
    exact ⟨_, _, _, ⟨code, rfl, rfl⟩, ⟨_, _, _, rfl, ⟨_, _, _, rfl,
      ⟨_, _, _, hreplicas, ⟨_, hisrs, rfl⟩, rfl⟩, rfl⟩, rfl⟩, rfl⟩

theorem recognizes_topic : topic.Recognizes TopicLayout := by
  refine (recognizes_errorCode.bind fun _ => recognizes_name.bind fun _ =>
    (recognizes_counted recognizes_partition).bind_pure _).congr fun bytes t => ⟨?_, ?_⟩
  · rintro ⟨_, _, _, ⟨code, rfl, rfl⟩, ⟨_, name, _, hname, ⟨partitions, hpartitions, rfl⟩, rfl⟩,
      rfl⟩
    exact .mk code hname hpartitions
  · rintro ⟨code, hname, hpartitions⟩
    exact ⟨_, _, _, ⟨code, rfl, rfl⟩, ⟨_, _, _, hname, ⟨_, hpartitions, rfl⟩, rfl⟩, rfl⟩

theorem recognizes_responses : responses.Recognizes (Layout.One ResponseLayout) := by
  refine (recognizes_int32.bind fun _ => (recognizes_counted recognizes_broker).bind fun _ =>
    (recognizes_counted recognizes_topic).bind_pure _).congr fun bytes rs => ⟨?_, ?_⟩
  · rintro ⟨_, correlationId, _, rfl, ⟨_, brokers, _, hbrokers, ⟨topics, htopics, rfl⟩, rfl⟩, rfl⟩
    exact .mk (.mk correlationId hbrokers htopics)
  · rintro ⟨correlationId, hbrokers, htopics⟩
    exact ⟨_, _, _, rfl, ⟨_, _, _, hbrokers, ⟨_, htopics, rfl⟩, rfl⟩, rfl⟩

end Metadata

theorem RequestKind.recognizes_responses (kind : RequestKind) :
    kind.responses.Recognizes kind.ResponseLayout := by
  cases kind with
  | produce => exact Produce.recognizes_responses.map Responses.produce
  | fetch => exact Fetch.recognizes_responses.map Responses.fetch
  | offset => exact Offset.recognizes_responses.map Responses.offset
  | metadata => exact Metadata.recognizes_responses.map Responses.metadata
  | offsetCommit => exact OffsetCommit.recognizes_responses.map Responses.offsetCommit
  | offsetFetch => exact OffsetFetch.recognizes_responses.map Responses.offsetFetch
  | consumerMetadata => exact ConsumerMetadata.recognizes_responses.map Responses.consumerMetadata

/-- A response is read if and only if the bytes start with an instance of the kind's layout, and
then it is what the layout says; the bytes behind the instance are ignored. -/
theorem RequestKind.decode_eq_ok_iff_responseLayout (kind : RequestKind) (data : Bytes)
    (rs : Responses) :
    kind.decode data = .ok rs ↔
      ∃ bytes slack, kind.ResponseLayout bytes rs ∧ data = bytes ++ slack :=
  kind.recognizes_responses.decode_eq_ok_iff

end BrokerWire
