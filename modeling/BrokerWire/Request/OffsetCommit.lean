import BrokerWire.Grouping
import BrokerWire.Request.Header
import BrokerWire.Request.Topics

/-!
# Offset commit

Stores the positions of a consumer group.
-/

namespace BrokerWire

namespace OffsetCommit

/-- A position to store. -/
structure Entry where
  /-- The topic of the partition. -/
  topic : String
  /-- The partition. -/
  partitionId : Int32
  /-- The position in its log. -/
  offset : Int64
  /-- The time of the commit in milliseconds; -1 for the time at which the broker receives it. -/
  timestamp : Int64 := -1
  /-- A note to keep with the position. -/
  metadata : Option String := none
  deriving DecidableEq, Repr

/-- A request to store positions. -/
structure Request where
  /-- What every request carries. -/
  header : RequestHeader := {}
  /-- The consumer group. -/
  group : String
  /-- The positions. -/
  commits : List Entry := []
  deriving DecidableEq, Repr

/-- What the broker reports for one partition. -/
structure Response where
  /-- The topic of the partition. -/
  topic : String
  /-- The partition. -/
  partitionId : Int32
  /-- Whether the position was stored. -/
  error : ErrorCode
  deriving DecidableEq, Repr

namespace Request

/-- Writes what follows the header. -/
def body (r : Request) : Encoder Unit := do
  Encoder.string (some r.group)
  Encoder.topics (groupByTopic Entry.topic Entry.partitionId r.commits) fun entry => do
    Encoder.int32 entry.partitionId
    Encoder.int64 entry.offset
    Encoder.int64 entry.timestamp
    Encoder.string entry.metadata

/-- Writes the frame. -/
def encode (r : Request) : Encoder Unit := Encoder.framed .offsetCommit r.header r.body

end Request

/-- Reads what the broker reports, partition by partition. -/
def responses : Decoder (List Response) := do
  let _ ← Decoder.int32
  Decoder.topics fun topic => do
    let partitionId ← Decoder.int32
    let error ← Decoder.errorCode
    return { topic, partitionId, error }

end OffsetCommit

end BrokerWire
