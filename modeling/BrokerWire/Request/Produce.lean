import BrokerWire.Grouping
import BrokerWire.MessageSet
import BrokerWire.Request.Header
import BrokerWire.Request.Topics

/-!
# Produce

Appends messages to partitions. Each partition of a topic gets one message set, made of the
messages of all its payloads in order.
-/

namespace BrokerWire

namespace Produce

/-- A request to append messages. -/
structure Request where
  /-- What every request carries. -/
  header : RequestHeader := {}
  /-- How many replicas have to hold the messages before the broker answers: 0 for no answer at
  all, 1 for the leader, -1 for all that are in sync. -/
  acks : Int16 := 1
  /-- How long, in milliseconds, the broker may wait for them. -/
  timeoutMs : Int32 := 1000
  /-- What to append, in order. -/
  payloads : List Payload := []
  deriving DecidableEq, Repr

/-- What the broker reports for one partition. -/
structure Response where
  /-- The topic of the partition. -/
  topic : String
  /-- The partition. -/
  partitionId : Int32
  /-- Whether the messages were appended. -/
  error : ErrorCode
  /-- The offset of the first of them. -/
  offset : Int64
  deriving DecidableEq, Repr

/-- Gathers neighbouring payloads of the same partition. -/
def partitionRuns : List Payload → List (Int32 × List Payload)
  | [] => []
  | payload :: payloads =>
    match partitionRuns payloads with
    | [] => [(payload.partition, [payload])]
    | (partition, run) :: runs =>
      if partition = payload.partition then (partition, payload :: run) :: runs
      else (payload.partition, [payload]) :: (partition, run) :: runs

namespace Request

/-- The partitions of each topic with their payloads. -/
def partitions (r : Request) : List (String × List (Int32 × List Payload)) :=
  (groupByTopic Payload.topic Payload.partition r.payloads).map
    fun (topic, payloads) => (topic, partitionRuns payloads)

/-- Writes what follows the header. -/
def body (r : Request) : Encoder Unit := do
  Encoder.int16 r.acks
  Encoder.int32 r.timeoutMs
  Encoder.topics r.partitions fun (partition, payloads) => do
    Encoder.int32 partition
    Encoder.delimited (MessageSet.encode (payloads.flatMap Payload.messages))

/-- Writes the frame. A request with a payload that is to be compressed is refused at once. -/
def encode (r : Request) : Encoder Unit :=
  match r.payloads.find? fun payload => payload.codec ≠ .none with
  | some payload => throw (.unsupportedCodec payload.codec.id)
  | none => Encoder.framed .produce r.header r.body

end Request

/-- Reads what the broker reports, partition by partition. -/
def responses : Decoder (List Response) := do
  let _ ← Decoder.int32
  Decoder.topics fun topic => do
    let partitionId ← Decoder.int32
    let error ← Decoder.errorCode
    let offset ← Decoder.int64
    return { topic, partitionId, error, offset }

end Produce

end BrokerWire
