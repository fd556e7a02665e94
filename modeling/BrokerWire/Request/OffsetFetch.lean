import BrokerWire.Grouping
import BrokerWire.Request.Header
import BrokerWire.Request.Topics

/-!
# Offset fetch

Loads the positions that a consumer group has stored.
-/

namespace BrokerWire

/-- A consumer's position in a partition's log. -/
structure OffsetPosition where
  /-- The partition. -/
  partitionId : Int32 := 0
  /-- The offset in its log. -/
  offset : Int64 := 0
  deriving DecidableEq, Repr

/-- A position in words. -/
def OffsetPosition.text (p : OffsetPosition) : String :=
  "PartitionId:" ++ toString p.partitionId.toInt ++ ", Offset:" ++ toString p.offset.toInt

namespace OffsetFetch

/-- A partition whose position to load. -/
structure Entry where
  /-- The topic of the partition. -/
  topic : String
  /-- The partition. -/
  partitionId : Int32
  deriving DecidableEq, Repr

/-- A request for positions. -/
structure Request where
  /-- What every request carries. -/
  header : RequestHeader := {}
  /-- The consumer group. -/
  group : String
  /-- The partitions. -/
  topics : List Entry := []
  deriving DecidableEq, Repr

/-- What the broker returns for one partition. -/
structure Response where
  /-- The topic of the partition. -/
  topic : String
  /-- The partition. -/
  partitionId : Int32
  /-- The position, or -1 if the group has stored none. -/
  offset : Int64
  /-- The note kept with it. -/
  metadata : Option String
  /-- Whether the position could be loaded. -/
  error : ErrorCode
  deriving DecidableEq, Repr

/-- The position of a response without its topic. -/
def Response.position (r : Response) : OffsetPosition := ⟨r.partitionId, r.offset⟩

namespace Request

/-- Writes what follows the header. -/
def body (r : Request) : Encoder Unit := do
  Encoder.string (some r.group)
  Encoder.topics (groupByTopic Entry.topic Entry.partitionId r.topics) fun entry =>
    Encoder.int32 entry.partitionId

/-- Writes the frame. -/
def encode (r : Request) : Encoder Unit := Encoder.framed .offsetFetch r.header r.body

end Request

/-- Reads what the broker returns, partition by partition. -/
def responses : Decoder (List Response) := do
  let _ ← Decoder.int32
  Decoder.topics fun topic => do
    let partitionId ← Decoder.int32
    let offset ← Decoder.int64
    let metadata ← Decoder.string
    let error ← Decoder.errorCode
    return { topic, partitionId, offset, metadata, error }

end OffsetFetch

end BrokerWire
