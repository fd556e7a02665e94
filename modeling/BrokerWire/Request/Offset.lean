import BrokerWire.Grouping
import BrokerWire.Request.Header
import BrokerWire.Request.Topics

/-!
# Offset

Asks at which offsets the segments of a partition's log start.
-/

namespace BrokerWire

namespace Offset

/-- The time that asks for the offset that the next message will get. -/
def latestTime : Int64 := -1

/-- The time that asks for the oldest offset that is kept. -/
def earliestTime : Int64 := -2

/-- A partition to ask about. -/
structure Entry where
  /-- The topic of the partition. -/
  topic : String
  /-- The partition. -/
  partitionId : Int32
  /-- Offsets before this time in milliseconds, `latestTime` or `earliestTime`. -/
  time : Int64 := latestTime
  /-- How many offsets to return at most. -/
  maxOffsets : Int32 := 1
  deriving DecidableEq, Repr

/-- A request for offsets. -/
structure Request where
  /-- What every request carries. -/
  header : RequestHeader := {}
  /-- What to ask about. -/
  offsets : List Entry := []
  deriving DecidableEq, Repr

/-- What the broker returns for one partition. -/
structure Response where
  /-- The topic of the partition. -/
  topic : String
  /-- The partition. -/
  partitionId : Int32
  /-- Whether the broker could tell. -/
  error : ErrorCode
  /-- The offsets, newest first. -/
  offsets : List Int64
  deriving DecidableEq, Repr

namespace Request

/-- Writes what follows the header. -/
def body (r : Request) : Encoder Unit := do
  Encoder.int32 clientReplicaId
  Encoder.topics (groupByTopic Entry.topic Entry.partitionId r.offsets) fun entry => do
    Encoder.int32 entry.partitionId
    Encoder.int64 entry.time
    Encoder.int32 entry.maxOffsets

/-- Writes the frame. -/
def encode (r : Request) : Encoder Unit := Encoder.framed .offset r.header r.body

end Request

/-- Reads what the broker returns, partition by partition. -/
def responses : Decoder (List Response) := do
  let _ ← Decoder.int32
  Decoder.topics fun topic => do
    let partitionId ← Decoder.int32
    let error ← Decoder.errorCode
    let offsets ← Decoder.counted Decoder.int64
    return { topic, partitionId, error, offsets }

end Offset

end BrokerWire
