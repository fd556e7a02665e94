import BrokerWire.Cursor
import BrokerWire.FrameBuffer
import BrokerWire.Message

/-!
# Message sets

A message set is a run of records, and a record is an offset, a size and as many bytes as the size
says: a checksum and, covered by it, the fields of a message.

`MessageSet.records` splits bytes into records without looking inside them. It stops where fewer
bytes are left than a record's header or its declared size asks for, because a broker cuts a set
at a byte count and not between records. `MessageSet.decode` then reads a message off every
record, and `MessageSet.encode` writes messages as records.
-/

namespace BrokerWire

namespace MessageSet

/-- The bytes of a record in front of its body: eight of offset and four of size. -/
def headerSize : Nat := 12

/-- The bytes of a record's body in front of the fields. -/
def checksumSize : Nat := 4

/-- One record of a set. -/
structure Record where
  /-- The place in the log. -/
  offset : Int64
  /-- The checksum and the fields that it covers. -/
  body : Bytes
  deriving DecidableEq, Repr

/-- The first record of a set and the bytes behind it, unless the set ends before the record. -/
def nextRecord? (set : Bytes) : Option (Record × Bytes) :=
  let header := set.take headerSize
  if header.length < headerSize then none
  else
    let size := BigEndian.toInt32 (header.drop 8)
    let body := (set.drop headerSize).take size.toNatClampNeg
    if size < 0 ∨ body.length < size.toNatClampNeg then none
    else some (⟨BigEndian.toInt64 (header.take 8), body⟩, set.drop (headerSize + body.length))

theorem length_lt_of_nextRecord? {set rest : Bytes} {record : Record}
    (h : nextRecord? set = some (record, rest)) : rest.length < set.length := by
  unfold nextRecord? at h
  simp only at h
  split at h
  · contradiction
  · rename_i hheader
    split at h
    · contradiction
    · cases h
      simp only [List.length_take, headerSize, List.length_drop] at *
      omega

/-- The whole records of a set, in order. -/
def records (set : Bytes) : List Record :=
  match _h : nextRecord? set with
  | none => []
  | some (record, rest) => record :: records rest
termination_by set.length
decreasing_by exact length_lt_of_nextRecord? _h

/-- Reads the fields that a checksum covers. A message that is compressed, or that declares a
codec which does not exist, is refused. Bytes behind the value are ignored. -/
def fields (offset : Int64) (partitionId : Int32) : Decoder Message := do
  let magic ← Decoder.uint8
  let attributes ← Decoder.uint8
  let key ← Decoder.bytes
  match Codec.ofAttributes attributes with
  | .ok .none => pure ()
  | .ok codec => throw (.unsupportedCodec codec.id)
  | .error id => throw (.unsupportedCodec id)
  let value ← Decoder.bytes
  return { offset, partitionId, magic, attributes, key, value }

/-- The message of a record whose checksum matches. -/
def Record.decode (partitionId : Int32) (record : Record) : Except WireError Message :=
  let covered := record.body.drop checksumSize
  if record.body.length < checksumSize then
    .error (.protocol (.messageTooShort record.offset record.body.length))
  else if Checksum.stored (Checksum.crc32 covered) ≠ record.body.take checksumSize then
    .error (.crcMismatch record.offset)
  else Decoder.decode (fields record.offset partitionId) covered

/-- The messages of a set, or the failure of the first record that is not acceptable. -/
def decode (set : Bytes) (partitionId : Int32) : Except WireError (List Message) :=
  (records set).mapM (Record.decode partitionId)

/-- Writes one message as a record. The offset goes out as zero, since the broker assigns it. -/
def encodeMessage (m : Message) : Encoder Unit := do
  Encoder.int64 0
  Encoder.delimited do
    Encoder.checksummed do
      Encoder.uint8 m.magic
      Encoder.uint8 m.attributes
      Encoder.bytes m.key
      Encoder.bytes m.value

/-- Writes messages as records, one behind the other. -/
def encode (messages : List Message) : Encoder Unit :=
  messages.forM encodeMessage

end MessageSet

end BrokerWire
