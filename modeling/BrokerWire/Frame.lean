import BrokerWire.BigEndian

/-!
# Splitting a stream into frames

A frame is a signed 32-bit length and as many bytes as it says. `nextFrame` splits the first frame
off a stream that has ended.
-/

namespace BrokerWire

/-- The most bytes that a frame may announce. -/
def maxFrameSize : Int := 104857600

/-- Whether a frame of this length may be. -/
def isFrameLength (length : Int32) : Bool :=
  0 ≤ length.toInt && length.toInt ≤ maxFrameSize

/-- What stands at the front of a stream that has ended. -/
inductive NextFrame where
  /-- A whole frame, and what follows it. -/
  | frame (body rest : Bytes)
  /-- A length that no frame has. -/
  | impossible (length : Int32)
  /-- Too few bytes for a frame. -/
  | short
  deriving DecidableEq, Repr

/-- Splits the first frame off a stream that has ended. -/
def nextFrame (stream : Bytes) : NextFrame :=
  let field := stream.take 4
  if field.length < 4 then .short
  else
    let length := BigEndian.toInt32 field
    if isFrameLength length then
      let behind := stream.drop 4
      let body := behind.take length.toNatClampNeg
      if body.length < length.toNatClampNeg then .short
      else .frame body (behind.drop length.toNatClampNeg)
    else .impossible length

end BrokerWire
