import BrokerWire.Cursor
import BrokerWire.FrameBuffer

/-!
# Frames

What all requests share: a frame is its length followed by the kind of request, the version, the
header and the body. A response starts with the correlation id of its request.
-/

namespace BrokerWire

/-- What every request carries. -/
structure RequestHeader where
  /-- The number that the response repeats. -/
  correlationId : Int32 := 1
  /-- The name of the client, if it gives one. -/
  clientId : Option String := some defaultClientId
  deriving DecidableEq, Repr

/-- Writes a request frame around its body. -/
def Encoder.framed (key : ApiKey) (header : RequestHeader) (body : Encoder Unit) :
    Encoder Unit :=
  delimited do
    apiKey key
    int16 apiVersion
    int32 header.correlationId
    string header.clientId
    body

/-- The correlation id of a response. -/
def correlationIdOf (response : Bytes) : Except WireError Int32 :=
  Decoder.decode Decoder.int32 response

end BrokerWire
