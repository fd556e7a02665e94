import BrokerWire.Request.ConsumerMetadata
import BrokerWire.Request.Fetch
import BrokerWire.Request.Metadata
import BrokerWire.Request.Offset
import BrokerWire.Request.OffsetCommit
import BrokerWire.Request.OffsetFetch
import BrokerWire.Request.Produce

/-!
# Requests and responses of every kind

The seven kinds of request that a client sends, and the responses to each kind.
-/

namespace BrokerWire

/-- The kinds of request that a client sends. -/
inductive RequestKind where
  | produce
  | fetch
  | offset
  | metadata
  | offsetCommit
  | offsetFetch
  | consumerMetadata
  deriving DecidableEq, Repr

/-- The number of a kind. -/
def RequestKind.apiKey : RequestKind → ApiKey
  | produce => .produce
  | fetch => .fetch
  | offset => .offset
  | metadata => .metadata
  | offsetCommit => .offsetCommit
  | offsetFetch => .offsetFetch
  | consumerMetadata => .consumerMetadata

/-- A request of any kind. -/
inductive Request where
  | produce (r : Produce.Request)
  | fetch (r : Fetch.Request)
  | offset (r : Offset.Request)
  | metadata (r : Metadata.Request)
  | offsetCommit (r : OffsetCommit.Request)
  | offsetFetch (r : OffsetFetch.Request)
  | consumerMetadata (r : ConsumerMetadata.Request)
  deriving DecidableEq, Repr

namespace Request

/-- The kind of a request. -/
def kind : Request → RequestKind
  | produce _ => .produce
  | fetch _ => .fetch
  | offset _ => .offset
  | metadata _ => .metadata
  | offsetCommit _ => .offsetCommit
  | offsetFetch _ => .offsetFetch
  | consumerMetadata _ => .consumerMetadata

/-- What the request has in common with others. -/
def header : Request → RequestHeader
  | produce r => r.header
  | fetch r => r.header
  | offset r => r.header
  | metadata r => r.header
  | offsetCommit r => r.header
  | offsetFetch r => r.header
  | consumerMetadata r => r.header

/-- Writes the frame of a request. -/
def encode : Request → Encoder Unit
  | produce r => r.encode
  | fetch r => r.encode
  | offset r => r.encode
  | metadata r => r.encode
  | offsetCommit r => r.encode
  | offsetFetch r => r.encode
  | consumerMetadata r => r.encode

/-- The frame of a request on its own. -/
def frame (r : Request) : Except WireError Bytes := r.encode.encode

/-- The first payload that is to be compressed is why a request to append is refused. -/
theorem encode_produce_of_some {r : Produce.Request} {payload : Payload}
    (h : r.payloads.find? (fun payload => payload.codec ≠ .none) = some payload) :
    (produce r).encode = throw (.unsupportedCodec payload.codec.id) := by
  rw [encode, Produce.Request.encode, h]

theorem encode_produce_of_none {r : Produce.Request}
    (h : r.payloads.find? (fun payload => payload.codec ≠ .none) = none) :
    (produce r).encode = Encoder.framed .produce r.header r.body := by
  rw [encode, Produce.Request.encode, h]

end Request

/-- The responses to a request of one kind. -/
inductive Responses where
  | produce (rs : List Produce.Response)
  | fetch (rs : List Fetch.Response)
  | offset (rs : List Offset.Response)
  | metadata (rs : List Metadata.Response)
  | offsetCommit (rs : List OffsetCommit.Response)
  | offsetFetch (rs : List OffsetFetch.Response)
  | consumerMetadata (rs : List ConsumerMetadata.Response)
  deriving DecidableEq, Repr

/-- Reads the responses to a request of a kind. -/
def RequestKind.responses : RequestKind → Decoder Responses
  | produce => Responses.produce <$> Produce.responses
  | fetch => Responses.fetch <$> Fetch.responses
  | offset => Responses.offset <$> Offset.responses
  | metadata => Responses.metadata <$> Metadata.responses
  | offsetCommit => Responses.offsetCommit <$> OffsetCommit.responses
  | offsetFetch => Responses.offsetFetch <$> OffsetFetch.responses
  | consumerMetadata => Responses.consumerMetadata <$> ConsumerMetadata.responses

/-- The responses in the bytes that a broker sends back, without their length. Bytes behind the
responses are ignored. -/
def RequestKind.decode (kind : RequestKind) (data : Bytes) : Except WireError Responses :=
  kind.responses.decode data

end BrokerWire
