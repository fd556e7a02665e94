import BrokerWire.Grouping
import BrokerWire.MessageSet
import BrokerWire.Request.Header
import BrokerWire.Request.Topics

/-!
# Fetch

Reads messages from partitions.
-/

namespace BrokerWire

namespace Fetch

/-- How many bytes the broker gathers before it answers, unless told otherwise. -/
def defaultMinBytes : Int32 := 4096

/-- How many milliseconds it waits for them, unless told otherwise. -/
def defaultMaxWaitTime : Int32 := 10

/-- How many bytes it returns for a partition at most, unless told otherwise. -/
def defaultMaxBytes : Int32 := defaultMinBytes * 8

/-- A partition to read from. -/
structure Entry where
  /-- The topic of the partition. -/
  topic : String
  /-- The partition. -/
  partitionId : Int32
  /-- The offset to start at. -/
  offset : Int64
  /-- How many bytes to return at most. -/
  maxBytes : Int32 := defaultMaxBytes
  deriving DecidableEq, Repr

/-- A request to read messages. -/
structure Request where
  /-- What every request carries. -/
  header : RequestHeader := {}
  /-- How many milliseconds the broker may wait for `minBytes`. -/
  maxWaitTime : Int32 := defaultMaxWaitTime
  /-- How many bytes there have to be before the broker answers. -/
  minBytes : Int32 := defaultMinBytes
  /-- What to read. -/
  fetches : List Entry := []
  deriving DecidableEq, Repr

/-- What the broker returns for one partition. -/
structure Response where
  /-- The topic of the partition. -/
  topic : String
  /-- The partition. -/
  partitionId : Int32
  /-- Whether it could be read. -/
  error : ErrorCode
  /-- The offset at the end of the partition's log. -/
  highWaterMark : Int64
  /-- The messages read. -/
  messages : List Message
  deriving DecidableEq, Repr

namespace Request

/-- Writes what follows the header. -/
def body (r : Request) : Encoder Unit := do
  Encoder.int32 clientReplicaId
  Encoder.int32 r.maxWaitTime
  Encoder.int32 r.minBytes
  Encoder.topics (groupByTopic Entry.topic Entry.partitionId r.fetches) fun entry => do
    Encoder.int32 entry.partitionId
    Encoder.int64 entry.offset
    Encoder.int32 entry.maxBytes

/-- Writes the frame. -/
def encode (r : Request) : Encoder Unit := Encoder.framed .fetch r.header r.body

end Request

/-- Reads a message set behind its size. -/
def messageSet (partitionId : Int32) : Decoder (List Message) := do
  let set ← Decoder.take (← Decoder.count)
  match MessageSet.decode set partitionId with
  | .ok messages => return messages
  | .error e => throw e

/-- Reads what the broker returns, partition by partition. -/
def responses : Decoder (List Response) := do
  let _ ← Decoder.int32
  Decoder.topics fun topic => do
    let partitionId ← Decoder.int32
    let error ← Decoder.errorCode
    let highWaterMark ← Decoder.int64
    let messages ← messageSet partitionId
    return { topic, partitionId, error, highWaterMark, messages }

end Fetch

end BrokerWire
