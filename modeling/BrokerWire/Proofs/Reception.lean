import BrokerWire.Proofs.Grouping
import BrokerWire.Proofs.Records
import BrokerWire.Request

/-!
# Requests as a broker reads them

`Reception.frame` reads a request frame of version 0 the way a broker does: it knows the layout and
nothing of how requests are put together, and it refuses a number that no length field of a request
has. `Request.received` is what there is to be found in the frame of a request. Names, numbers and
entries are the request's own, except that an empty text and no text are the same, that entries are
arranged by topic and partition, and that messages come as records.
-/

namespace BrokerWire

namespace Reception

/-- What follows the header of a request. -/
inductive Body where
  /-- The records of each partition of each topic. -/
  | produce (acks : Int16) (timeoutMs : Int32)
      (topics : List (String × List (Int32 × List MessageSet.Record)))
  | fetch (replicaId maxWaitTime minBytes : Int32) (topics : List (String × List Fetch.Entry))
  | offset (replicaId : Int32) (topics : List (String × List Offset.Entry))
  | metadata (topics : List String)
  | offsetCommit (group : String) (topics : List (String × List OffsetCommit.Entry))
  | offsetFetch (group : String) (topics : List (String × List OffsetFetch.Entry))
  | consumerMetadata (group : String)
  /-- A number that no kind of request of a client has. -/
  | unknown
  deriving DecidableEq, Repr

/-- A request frame. -/
structure Frame where
  /-- The number that stands in front of everything else. -/
  length : Int32
  /-- The number of the kind. -/
  apiKey : Int16
  /-- The version. -/
  apiVersion : Int16
  /-- The number that the response repeats. -/
  correlationId : Int32
  /-- The name of the client. -/
  clientId : Option String
  /-- What follows. -/
  body : Body
  deriving DecidableEq, Repr

/-- Reads something that starts with a number, which must not be less than `least`. -/
def startingFrom (least : Int) (number : Decoder Int) (d : Decoder α) : Decoder α := do
  let start ← get
  let n ← number
  if n < least then throw (.protocol (.stated ("length field of " ++ toString n)))
  set start
  d

/-- Reads a number of elements or bytes. A negative one is refused. -/
def size : Decoder Nat := startingFrom 0 (Int32.toInt <$> Decoder.int32) Decoder.count

/-- Reads a text or none. A length below -1 is refused. -/
def text : Decoder (Option String) :=
  startingFrom (-1) (Int16.toInt <$> Decoder.int16) Decoder.string

/-- Reads a text for which absence and emptiness are the same. -/
def name : Decoder String := do
  return (← text).getD ""

/-- Reads elements behind their number. -/
def counted (item : Decoder α) : Decoder (List α) := do
  Decoder.repeated item (← size)

/-- Reads topics behind their number, each a name and its members behind their number. -/
def topics (member : String → Decoder α) : Decoder (List (String × List α)) :=
  counted do
    let topic ← name
    let members ← counted (member topic)
    return (topic, members)

/-- Reads the records of a message set behind the set's length. A set that does not consist of
whole records is refused. -/
def messageSet : Decoder (List MessageSet.Record) := do
  let set ← size >>= Decoder.take
  let records := MessageSet.records set
  let covered := records.flatMap MessageSet.Record.bytes
  if covered = set then return records else throw (.truncated set.length covered.length)

/-- Reads a partition and its message set. -/
def partitionSet : Decoder (Int32 × List MessageSet.Record) := do
  let partition ← Decoder.int32
  let records ← messageSet
  return (partition, records)

/-- Reads a partition to read from. -/
def fetchEntry (topic : String) : Decoder Fetch.Entry := do
  let partitionId ← Decoder.int32
  let offset ← Decoder.int64
  let maxBytes ← Decoder.int32
  return { topic, partitionId, offset, maxBytes }

/-- Reads a partition to ask about. -/
def offsetEntry (topic : String) : Decoder Offset.Entry := do
  let partitionId ← Decoder.int32
  let time ← Decoder.int64
  let maxOffsets ← Decoder.int32
  return { topic, partitionId, time, maxOffsets }

/-- Reads a position to store. -/
def commitEntry (topic : String) : Decoder OffsetCommit.Entry := do
  let partitionId ← Decoder.int32
  let offset ← Decoder.int64
  let timestamp ← Decoder.int64
  let metadata ← text
  return { topic, partitionId, offset, timestamp, metadata }

/-- Reads a partition whose position to load. -/
def positionEntry (topic : String) : Decoder OffsetFetch.Entry := do
  let partitionId ← Decoder.int32
  return { topic, partitionId }

/-- Reads what follows the header of a request of a kind. -/
def body (apiKey : Int16) : Decoder Body :=
  match apiKey.toInt with
  | 0 => do
    let acks ← Decoder.int16
    let timeoutMs ← Decoder.int32
    let sets ← topics fun _ => partitionSet
    return .produce acks timeoutMs sets
  | 1 => do
    let replicaId ← Decoder.int32
    let maxWaitTime ← Decoder.int32
    let minBytes ← Decoder.int32
    let entries ← topics fetchEntry
    return .fetch replicaId maxWaitTime minBytes entries
  | 2 => do
    let replicaId ← Decoder.int32
    let entries ← topics offsetEntry
    return .offset replicaId entries
  | 3 => do
    let names ← counted name
    return .metadata names
  | 8 => do
    let group ← name
    let entries ← topics commitEntry
    return .offsetCommit group entries
  | 9 => do
    let group ← name
    let entries ← topics positionEntry
    return .offsetFetch group entries
  | 10 => do
    let group ← name
    return .consumerMetadata group
  | _ => return .unknown

/-- Reads what follows the length of a frame. -/
def behindLength (length : Int32) : Decoder Frame := do
  let apiKey ← Decoder.int16
  let apiVersion ← Decoder.int16
  let correlationId ← Decoder.int32
  let clientId ← text
  let body ← body apiKey
  return { length, apiKey, apiVersion, correlationId, clientId, body }

/-- Reads a frame. -/
def frame : Decoder Frame := Decoder.int32 >>= behindLength

end Reception

/-! ### What there is to be found -/

/-- The header of a request as it is received. -/
def RequestHeader.received (header : RequestHeader) : RequestHeader :=
  { header with clientId := stated header.clientId }

/-- A position to store as it is received. -/
def OffsetCommit.Entry.received (entry : OffsetCommit.Entry) : OffsetCommit.Entry :=
  { entry with metadata := stated entry.metadata }

/-- The records of the messages of payloads. -/
def Produce.recordsOf (payloads : List Payload) : List MessageSet.Record :=
  (payloads.flatMap Payload.messages).map MessageSet.Record.ofMessage

/-- The records of the payloads of one topic, by partition. -/
def Produce.partitionRecords (payloads : List Payload) : List (Int32 × List MessageSet.Record) :=
  (groupedBy Payload.partition payloads).map fun (partition, members) =>
    (partition, recordsOf members)

/-- The records of a request, by topic and partition. -/
def Produce.Request.records (r : Produce.Request) :
    List (String × List (Int32 × List MessageSet.Record)) :=
  (groupedBy Payload.topic r.payloads).map fun (topic, members) => (topic, partitionRecords members)

namespace Request

/-- What follows the header of a request as it is received. -/
def received : Request → Reception.Body
  | produce r => .produce r.acks r.timeoutMs r.records
  | fetch r => .fetch (-1) r.maxWaitTime r.minBytes
      (arranged Fetch.Entry.topic Fetch.Entry.partitionId r.fetches)
  | offset r => .offset (-1) (arranged Offset.Entry.topic Offset.Entry.partitionId r.offsets)
  | metadata r => .metadata r.topics
  | offsetCommit r => .offsetCommit r.group
      ((arranged OffsetCommit.Entry.topic OffsetCommit.Entry.partitionId r.commits).map
        fun (topic, entries) => (topic, entries.map OffsetCommit.Entry.received))
  | offsetFetch r => .offsetFetch r.group
      (arranged OffsetFetch.Entry.topic OffsetFetch.Entry.partitionId r.topics)
  | consumerMetadata r => .consumerMetadata r.group

/-- Whether two requests say the same, up to the order of their entries and to whether a text is
empty or absent. -/
def SaysSame : Request → Request → Prop
  | produce r, produce r' =>
    r.header.received = r'.header.received ∧ r.acks = r'.acks ∧ r.timeoutMs = r'.timeoutMs ∧
      r.records = r'.records
  | fetch r, fetch r' =>
    r.header.received = r'.header.received ∧ r.maxWaitTime = r'.maxWaitTime ∧
      r.minBytes = r'.minBytes ∧ r.fetches.Perm r'.fetches
  | offset r, offset r' =>
    r.header.received = r'.header.received ∧ r.offsets.Perm r'.offsets
  | metadata r, metadata r' =>
    r.header.received = r'.header.received ∧ r.topics = r'.topics
  | offsetCommit r, offsetCommit r' =>
    r.header.received = r'.header.received ∧ r.group = r'.group ∧
      (r.commits.map OffsetCommit.Entry.received).Perm (r'.commits.map OffsetCommit.Entry.received)
  | offsetFetch r, offsetFetch r' =>
    r.header.received = r'.header.received ∧ r.group = r'.group ∧ r.topics.Perm r'.topics
  | consumerMetadata r, consumerMetadata r' =>
    r.header.received = r'.header.received ∧ r.group = r'.group
  | _, _ => False

end Request

end BrokerWire
