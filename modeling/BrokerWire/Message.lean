import BrokerWire.BigEndian
import BrokerWire.Codec

/-!
# Messages

A message of a partition's log, and the messages that a client hands over for one partition.
-/

namespace BrokerWire

/-- A message. -/
structure Message where
  /-- The place in the log, which the broker assigns. -/
  offset : Int64 := 0
  /-- The partition whose log holds the message. -/
  partitionId : Int32 := 0
  /-- The version of the message format. -/
  magic : UInt8 := 0
  /-- Attribute bits; the low two hold the codec. -/
  attributes : UInt8 := 0
  /-- The routing key, if there is one. -/
  key : Option Bytes := none
  /-- The body, if there is one. -/
  value : Option Bytes := none
  deriving DecidableEq, Repr

/-- The codec that the attribute bits declare, or the number there that no codec has. -/
def Message.codec (m : Message) : Except UInt8 Codec :=
  Codec.ofAttributes m.attributes

/-- Messages for one partition of a topic. -/
structure Payload where
  /-- The topic to append to. -/
  topic : String
  /-- The partition of the topic. -/
  partition : Int32
  /-- How the messages are to be compressed. -/
  codec : Codec := .none
  /-- The messages, in order. -/
  messages : List Message
  deriving DecidableEq, Repr

end BrokerWire
