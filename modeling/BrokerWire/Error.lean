import BrokerWire.Text.Utf8

/-!
# What can go wrong

`WireError` names the causes for which encoding, decoding or an exchange with a broker fails, and
`WireError.message` words each. The codes that a broker reports for a partition are no failures
here: they are part of the decoded records.
-/

namespace BrokerWire

/-- How bytes or values break the rules of the protocol. -/
inductive ProtocolFault where
  /-- A text of `bytes` bytes is longer than its 16-bit length field can say. -/
  | stringTooLong (bytes : Nat)
  /-- A byte array of `bytes` bytes is longer than its 32-bit length field can say. -/
  | arrayTooLong (bytes : Nat)
  /-- The message at `offset` has `size` bytes, too few for its checksum. -/
  | messageTooShort (offset : Int64) (size : Nat)
  /-- The text whose bytes start at position `start` is not UTF-8. -/
  | invalidUtf8 (start : Nat) (fault : Utf8.Fault)
  /-- `endpoint` announced a frame of an impossible length. -/
  | frameLength (length : Int32) (endpoint : String)
  /-- A broker advertises a port that does not exist. -/
  | brokerPort (broker port : Int32)
  /-- A fault that is told in words only. -/
  | stated (text : String)
  deriving DecidableEq, Repr

/-- A fault in words. -/
def ProtocolFault.message : ProtocolFault → String
  | .stringTooLong bytes =>
    "string of " ++ toString bytes ++ " bytes exceeds the int16 length prefix"
  | .arrayTooLong bytes =>
    "byte array of " ++ toString bytes ++ " bytes exceeds the int32 length prefix"
  | .messageTooShort offset size =>
    "message at offset " ++ toString offset.toInt ++ " is " ++ toString size ++
      " bytes, too short for its checksum"
  | .invalidUtf8 start fault =>
    "invalid UTF-8 in string at byte " ++ toString start ++ ": " ++ fault.message
  | .frameLength length endpoint =>
    "invalid frame length " ++ toString length.toInt ++ " from " ++ endpoint
  | .brokerPort broker port =>
    "broker " ++ toString broker.toInt ++ " advertises invalid port " ++ toString port.toInt
  | .stated text => text

/-- The causes of failure. -/
inductive WireError where
  /-- The connection itself failed, for the reason told. -/
  | io (cause : String)
  /-- The checksum of the message at `offset` does not match its bytes. -/
  | crcMismatch (offset : Int64)
  /-- A message or payload is compressed with a codec that is not handled. -/
  | unsupportedCodec (id : UInt8)
  /-- `needed` bytes were due where only `remaining` were left. -/
  | truncated (needed remaining : Nat)
  /-- The rules of the protocol are broken. -/
  | protocol (fault : ProtocolFault)
  /-- The far side ended the connection. -/
  | serverDisconnected (endpoint : String)
  /-- There was no connection to use. -/
  | serverUnreachable (endpoint : String)
  /-- The socket was disposed. -/
  | disposed (endpoint : String)
  /-- The caller withdrew the operation. -/
  | cancelled
  /-- The host has no address. -/
  | unresolvedHostname (host : String)
  deriving DecidableEq, Repr

namespace WireError

/-- A failure in words. -/
def message : WireError → String
  | io cause => "IO error: " ++ cause
  | crcMismatch offset =>
    "CRC validation mismatch during message decoding (offset " ++ toString offset.toInt ++ ")"
  | unsupportedCodec id => "Codec type of " ++ toString id.toNat ++ " is not supported"
  | truncated needed remaining =>
    "Truncated input: needed " ++ toString needed ++ " bytes, " ++ toString remaining ++
      " remaining"
  | protocol fault => "Protocol error: " ++ fault.message
  | serverDisconnected endpoint => "Lost connection to server: " ++ endpoint
  | serverUnreachable endpoint => "Connection to " ++ endpoint ++ " was not established"
  | disposed endpoint => "Connection to " ++ endpoint ++ " is disposed"
  | cancelled => "Operation cancelled"
  | unresolvedHostname host => "Unable to resolve host: " ++ host

/-- Failures of the connection itself, as opposed to bad bytes and withdrawn operations. -/
def isTransport : WireError → Bool
  | io _ | serverDisconnected _ | serverUnreachable _ | disposed _ => true
  | _ => false

end WireError

end BrokerWire
