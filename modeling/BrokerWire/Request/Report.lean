import BrokerWire.Json
import BrokerWire.Request

/-!
# Responses as JSON

Every response is reported as an object with its fields in a fixed order. Bytes are lists of
numbers, and absent values are `null`.
-/

namespace BrokerWire

namespace Json

/-- A 32-bit integer. -/
def ofInt32 (x : Int32) : Json := number x.toInt

/-- A 64-bit integer. -/
def ofInt64 (x : Int64) : Json := number x.toInt

/-- Bytes as a list of numbers. -/
def ofBytes (bytes : Bytes) : Json := list (bytes.map fun b => number b.toNat)

/-- A value, or `null` in its absence. -/
def ofOption (toJson : α → Json) : Option α → Json
  | none => null
  | some a => toJson a

end Json

/-- The name of a code with a meaning, or an object with the number of one without. -/
def ErrorCode.toJson (e : ErrorCode) : Json :=
  match e.name with
  | .ok name => .text name
  | .error code => .object [("Unrecognized", .number code.toInt)]

/-- A message as an object. -/
def Message.toJson (m : Message) : Json :=
  .object [
    ("offset", .ofInt64 m.offset),
    ("partition_id", .ofInt32 m.partitionId),
    ("magic", .number m.magic.toNat),
    ("attributes", .number m.attributes.toNat),
    ("key", .ofOption .ofBytes m.key),
    ("value", .ofOption .ofBytes m.value)]

/-- A broker as an object. -/
def Broker.toJson (b : Broker) : Json :=
  .object [
    ("broker_id", .ofInt32 b.brokerId),
    ("host", .text b.host),
    ("port", .ofInt32 b.port)]

/-- A response as an object. -/
def Produce.Response.toJson (r : Produce.Response) : Json :=
  .object [
    ("topic", .text r.topic),
    ("partition_id", .ofInt32 r.partitionId),
    ("error", r.error.toJson),
    ("offset", .ofInt64 r.offset)]

/-- A response as an object. -/
def Fetch.Response.toJson (r : Fetch.Response) : Json :=
  .object [
    ("topic", .text r.topic),
    ("partition_id", .ofInt32 r.partitionId),
    ("error", r.error.toJson),
    ("high_water_mark", .ofInt64 r.highWaterMark),
    ("messages", .list (r.messages.map Message.toJson))]

/-- A response as an object. -/
def Offset.Response.toJson (r : Offset.Response) : Json :=
  .object [
    ("topic", .text r.topic),
    ("partition_id", .ofInt32 r.partitionId),
    ("error", r.error.toJson),
    ("offsets", .list (r.offsets.map Json.ofInt64))]

/-- The state of a partition as an object. -/
def Metadata.Partition.toJson (p : Metadata.Partition) : Json :=
  .object [
    ("error", p.error.toJson),
    ("partition_id", .ofInt32 p.partitionId),
    ("leader_id", .ofInt32 p.leaderId),
    ("replicas", .list (p.replicas.map Json.ofInt32)),
    ("isrs", .list (p.isrs.map Json.ofInt32))]

/-- The state of a topic as an object. -/
def Metadata.Topic.toJson (t : Metadata.Topic) : Json :=
  .object [
    ("error", t.error.toJson),
    ("name", .text t.name),
    ("partitions", .list (t.partitions.map Metadata.Partition.toJson))]

/-- The state of the cluster as an object. -/
def Metadata.Response.toJson (r : Metadata.Response) : Json :=
  .object [
    ("correlation_id", .ofInt32 r.correlationId),
    ("brokers", .list (r.brokers.map Broker.toJson)),
    ("topics", .list (r.topics.map Metadata.Topic.toJson))]

/-- A response as an object. -/
def OffsetCommit.Response.toJson (r : OffsetCommit.Response) : Json :=
  .object [
    ("topic", .text r.topic),
    ("partition_id", .ofInt32 r.partitionId),
    ("error", r.error.toJson)]

/-- A response as an object. -/
def OffsetFetch.Response.toJson (r : OffsetFetch.Response) : Json :=
  .object [
    ("topic", .text r.topic),
    ("partition_id", .ofInt32 r.partitionId),
    ("offset", .ofInt64 r.offset),
    ("metadata", .ofOption .text r.metadata),
    ("error", r.error.toJson)]

/-- A response as an object. -/
def ConsumerMetadata.Response.toJson (r : ConsumerMetadata.Response) : Json :=
  .object [
    ("error", r.error.toJson),
    ("coordinator_id", .ofInt32 r.coordinatorId),
    ("coordinator_host", .text r.coordinatorHost),
    ("coordinator_port", .ofInt32 r.coordinatorPort)]

/-- Responses, each as an object. -/
def Responses.toJson : Responses → List Json
  | produce rs => rs.map Produce.Response.toJson
  | fetch rs => rs.map Fetch.Response.toJson
  | offset rs => rs.map Offset.Response.toJson
  | metadata rs => rs.map Metadata.Response.toJson
  | offsetCommit rs => rs.map OffsetCommit.Response.toJson
  | offsetFetch rs => rs.map OffsetFetch.Response.toJson
  | consumerMetadata rs => rs.map ConsumerMetadata.Response.toJson

end BrokerWire
