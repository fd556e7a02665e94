/-!
# Compression codecs

The low two attribute bits of a message say how its value is compressed.
-/

namespace BrokerWire

/-- The attribute bits that hold the codec. -/
def attributeCodecMask : UInt8 := 0x03

/-- How a value is compressed. -/
inductive Codec where
  | none
  | gzip
  | snappy
  deriving DecidableEq, Repr

namespace Codec

/-- The number of a codec. -/
def id : Codec → UInt8
  | none => 0
  | gzip => 1
  | snappy => 2

/-- The name of a codec. -/
def name : Codec → String
  | none => "None"
  | gzip => "Gzip"
  | snappy => "Snappy"

/-- The codec that has a name. -/
def ofName? (name : String) : Option Codec :=
  [none, gzip, snappy].find? fun codec => codec.name == name

/-- The codec in attribute bits, or the number there that no codec has. -/
def ofAttributes (attributes : UInt8) : Except UInt8 Codec :=
  match (attributes &&& attributeCodecMask).toNat with
  | 0 => .ok none
  | 1 => .ok gzip
  | 2 => .ok snappy
  | _ => .error (attributes &&& attributeCodecMask)

end Codec

end BrokerWire
