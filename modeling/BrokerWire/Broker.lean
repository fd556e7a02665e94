/-!
# Brokers

A broker as the cluster advertises it.
-/

namespace BrokerWire

/-- A broker. -/
structure Broker where
  /-- Its number in the cluster. -/
  brokerId : Int32
  /-- The host it listens on, as advertised. -/
  host : String
  /-- The port it listens on, as advertised. -/
  port : Int32
  deriving DecidableEq, Repr

/-- The host and port of a broker in one text. -/
def Broker.address (b : Broker) : String :=
  b.host ++ ":" ++ toString b.port.toInt

end BrokerWire
