import BrokerWire.Cursor
import BrokerWire.ErrorCode
import BrokerWire.FrameBuffer

/-!
# Topics in requests and responses

Most requests and responses list topics, and under each topic its partitions.
-/

namespace BrokerWire

/-- Writes topics behind their number, each a name and its members behind their number. -/
def Encoder.topics (groups : List (String × List α)) (member : α → Encoder Unit) :
    Encoder Unit := do
  count groups.length
  groups.forM fun (name, members) => do
    string (some name)
    count members.length
    members.forM member

/-- Reads topics behind their number, each a name and its partitions behind their number. The
partitions of all topics come in the order of the bytes. -/
def Decoder.topics (partition : String → Decoder α) : Decoder (List α) := do
  let groups ← counted do
    let topic ← name
    counted (partition topic)
  return groups.flatten

/-- Reads an error code. -/
def Decoder.errorCode : Decoder ErrorCode := do
  return ErrorCode.ofCode (← int16)

end BrokerWire
