import BrokerWire.Broker
import BrokerWire.Request.Header
import BrokerWire.Request.Topics

/-!
# Metadata

Asks which brokers there are and which of them lead the partitions of topics. Main definition:
`Metadata.Response.leaderFor`, the broker that leads a partition.
-/

namespace BrokerWire

namespace Metadata

/-- A request for the state of the cluster. -/
structure Request where
  /-- What every request carries. -/
  header : RequestHeader := {}
  /-- The topics to describe; none at all asks for every topic. -/
  topics : List String := []
  deriving DecidableEq, Repr

/-- The state of a partition. -/
structure Partition where
  /-- Whether the partition is fine. -/
  error : ErrorCode
  /-- The partition. -/
  partitionId : Int32
  /-- The broker that leads it, or -1 while none does. -/
  leaderId : Int32
  /-- The brokers that hold copies. -/
  replicas : List Int32
  /-- The brokers whose copies are in sync. -/
  isrs : List Int32
  deriving DecidableEq, Repr

/-- The state of a topic. -/
structure Topic where
  /-- Whether the topic is fine. -/
  error : ErrorCode
  /-- Its name. -/
  name : String
  /-- Its partitions. -/
  partitions : List Partition
  deriving DecidableEq, Repr

/-- The state of the cluster. -/
structure Response where
  /-- The correlation id of the request. -/
  correlationId : Int32
  /-- The brokers. -/
  brokers : List Broker
  /-- The topics. -/
  topics : List Topic
  deriving DecidableEq, Repr

namespace Response

/-- The first listed broker with a number. -/
def broker? (r : Response) (brokerId : Int32) : Option Broker :=
  r.brokers.find? fun b => b.brokerId = brokerId

/-- The broker that leads a partition, if the partition is listed without an error, has a leader,
and the leader is listed. -/
def leaderFor (r : Response) (topic : String) (partitionId : Int32) : Option Broker := do
  let t ← r.topics.find? fun t => t.name = topic
  let p ← t.partitions.find? fun p => p.partitionId = partitionId
  if !p.error.isOk || p.leaderId < 0 then none
  else r.broker? p.leaderId

end Response

namespace Request

/-- Writes what follows the header. -/
def body (r : Request) : Encoder Unit := do
  Encoder.count r.topics.length
  r.topics.forM fun topic => Encoder.string (some topic)

/-- Writes the frame. -/
def encode (r : Request) : Encoder Unit := Encoder.framed .metadata r.header r.body

end Request

/-- Reads a broker. -/
def broker : Decoder Broker := do
  let brokerId ← Decoder.int32
  let host ← Decoder.name
  let port ← Decoder.int32
  return { brokerId, host, port }

/-- Reads the state of a partition. -/
def partition : Decoder Partition := do
  let error ← Decoder.errorCode
  let partitionId ← Decoder.int32
  let leaderId ← Decoder.int32
  let replicas ← Decoder.int32s
  let isrs ← Decoder.int32s
  return { error, partitionId, leaderId, replicas, isrs }

/-- Reads the state of a topic. -/
def topic : Decoder Topic := do
  let error ← Decoder.errorCode
  let name ← Decoder.name
  let partitions ← Decoder.counted partition
  return { error, name, partitions }

/-- Reads the state of the cluster, always as one response. -/
def responses : Decoder (List Response) := do
  let correlationId ← Decoder.int32
  let brokers ← Decoder.counted broker
  let topics ← Decoder.counted topic
  return [{ correlationId, brokers, topics }]

end Metadata

end BrokerWire
