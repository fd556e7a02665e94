import BrokerWire.Address
import BrokerWire.Broker
import BrokerWire.Error

/-!
# Endpoints

An endpoint is a host, as it was named, together with the address and port to connect to. Hosts
are given by their addresses; other names have none here.
-/

namespace BrokerWire

/-- A place to connect to. -/
structure Endpoint where
  /-- The host as it was named. -/
  host : String
  /-- The address of the host. -/
  address : IpAddress
  /-- The port to connect to. -/
  port : UInt16
  deriving DecidableEq, Repr

namespace Endpoint

/-- The endpoint of a host at a port. -/
def resolve (host : String) (port : UInt16) : Except WireError Endpoint :=
  match IpAddress.ofText? host with
  | some address => .ok ⟨host, address, port⟩
  | none => .error (.unresolvedHostname host)

/-- The endpoint of an address, which is named by its canonical form. -/
def ofAddress (address : IpAddress) (port : UInt16) : Endpoint :=
  ⟨address.text, address, port⟩

/-- The endpoint that a text of address and port spells; a version 6 address is in brackets. -/
def ofText? (text : String) : Option Endpoint :=
  let v4 : List Char → Option (Endpoint × List Char) := fun cs => do
    let (address, cs) ← Address.ipv4? cs
    let (port, cs) ← Address.port? (← Address.behind? ':' cs)
    return (ofAddress (.v4 address) port, cs)
  let v6 : List Char → Option (Endpoint × List Char) := fun cs => do
    let (address, cs) ← Address.ipv6? (← Address.behind? '[' cs)
    let (port, cs) ← Address.port? (← Address.behind? ':' (← Address.behind? ']' cs))
    return (ofAddress (.v6 address) port, cs)
  match Address.whole? v4 text with
  | some endpoint => some endpoint
  | none => Address.whole? v6 text

/-- The host and port in one text. -/
def text (e : Endpoint) : String :=
  e.host ++ ":" ++ toString e.port.toNat

/-- The address and port in one text, a version 6 address in brackets. -/
def addressText (e : Endpoint) : String :=
  match e.address with
  | .v4 address => address.text ++ ":" ++ toString e.port.toNat
  | .v6 address => "[" ++ address.text ++ "]:" ++ toString e.port.toNat

end Endpoint

/-- Where a broker can be reached, unless it advertises a port that does not exist. -/
def Broker.endpoint (b : Broker) : Except WireError Endpoint :=
  let port := b.port.toInt
  if 0 ≤ port ∧ port ≤ 65535 then Endpoint.resolve b.host (UInt16.ofNat port.toNat)
  else .error (.protocol (.brokerPort b.brokerId b.port))

end BrokerWire
