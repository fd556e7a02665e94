import BrokerWire.Broker
import BrokerWire.Request.Header
import BrokerWire.Request.Topics

/-!
# Consumer metadata

Asks which broker keeps the positions of a consumer group.
-/

namespace BrokerWire

namespace ConsumerMetadata

/-- A request for a group's coordinator. -/
structure Request where
  /-- What every request carries. -/
  header : RequestHeader := {}
  /-- The consumer group. -/
  group : String
  deriving DecidableEq, Repr

/-- What the broker returns. -/
structure Response where
  /-- Whether there is a coordinator. -/
  error : ErrorCode
  /-- The coordinator's number. -/
  coordinatorId : Int32
  /-- The coordinator's host. -/
  coordinatorHost : String
  /-- The coordinator's port. -/
  coordinatorPort : Int32
  deriving DecidableEq, Repr

/-- The coordinator as a broker. -/
def Response.coordinator (r : Response) : Broker :=
  ⟨r.coordinatorId, r.coordinatorHost, r.coordinatorPort⟩

namespace Request

/-- Writes what follows the header. -/
def body (r : Request) : Encoder Unit := Encoder.string (some r.group)

/-- Writes the frame. -/
def encode (r : Request) : Encoder Unit := Encoder.framed .consumerMetadata r.header r.body

end Request

/-- Reads what the broker returns, always as one response. -/
def responses : Decoder (List Response) := do
  let _ ← Decoder.int32
  let error ← Decoder.errorCode
  let coordinatorId ← Decoder.int32
  let coordinatorHost ← Decoder.name
  let coordinatorPort ← Decoder.int32
  return [{ error, coordinatorId, coordinatorHost, coordinatorPort }]

end ConsumerMetadata

end BrokerWire
