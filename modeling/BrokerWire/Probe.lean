import BrokerWire.Endpoint
import BrokerWire.Frame
import BrokerWire.Request.Report
import BrokerWire.Text.Blank
import BrokerWire.Text.PortNumber

/-!
# Probing a cluster

The probe asks a broker for the state of the cluster and reports it as JSON. Where the broker is,
which topics to ask for and under which name are settings; what the broker sends back decides the
rest.
-/

namespace BrokerWire

namespace Probe

/-- What the probe is told. -/
structure Settings where
  /-- The host and port of the broker. -/
  broker : String
  /-- The topics to ask for. -/
  topics : List String
  /-- The name under which to ask. -/
  clientId : String
  deriving DecidableEq, Repr

/-- The settings, with their defaults for what is left open: a broker on this machine, all topics,
and the common client id. -/
def Settings.ofVariables (broker topics clientId : Option String) : Settings :=
  { broker := broker.getD "127.0.0.1:9092"
    topics := (topics.map namesIn).getD []
    clientId := clientId.getD defaultClientId }

/-- Why the probe has nothing to report. -/
inductive Failure where
  /-- The broker's text holds no colon. -/
  | brokerText (text : String)
  /-- What follows the last colon is no port number. -/
  | port (fault : PortFault)
  /-- The exchange with the broker failed. -/
  | wire (error : WireError)
  /-- The response is not for the request. -/
  | correlation (response request : Int32)
  deriving DecidableEq, Repr

/-- A failure in words. -/
def Failure.message : Failure → String
  | .brokerText text => "THORWIRE_BROKER must be host:port, got " ++ text
  | .port fault => fault.message
  | .wire error => error.message
  | .correlation response request =>
    "response correlation id " ++ toString response.toInt ++ " does not match request " ++
      toString request.toInt

/-- The parts of a text in front of its last colon and behind it. -/
def splitAtLastColon? (text : String) : Option (String × String) :=
  let backwards := text.toList.reverse
  let behind := backwards.takeWhile (· ≠ ':')
  match backwards.dropWhile (· ≠ ':') with
  | [] => none
  | _ :: before => some (String.ofList before.reverse, String.ofList behind.reverse)

/-- The endpoint that a text of host and port names. -/
def endpointOf (broker : String) : Except Failure Endpoint :=
  match splitAtLastColon? broker with
  | none => .error (.brokerText broker)
  | some (host, port) =>
    match portOf port with
    | .error fault => .error (.port fault)
    | .ok port => (Endpoint.resolve host port).mapError .wire

/-- The request of the probe. -/
def Settings.request (s : Settings) : Metadata.Request :=
  { header := { correlationId := 1, clientId := some s.clientId }, topics := s.topics }

/-- The body of the frame that the broker sends, when these are all bytes it sends before it ends
the connection. -/
def replyBody (endpoint : Endpoint) (reply : Bytes) : Except WireError Bytes :=
  match nextFrame reply with
  | .frame body _ => .ok body
  | .impossible length => .error (.protocol (.frameLength length endpoint.text))
  | .short => .error (.serverDisconnected endpoint.text)

/-- The state of the cluster that a reply to the request tells. -/
def readReply (endpoint : Endpoint) (request : Metadata.Request) (reply : Bytes) :
    Except Failure (List Metadata.Response) := do
  let body ← (replyBody endpoint reply).mapError .wire
  let correlationId ← (correlationIdOf body).mapError .wire
  if correlationId ≠ request.header.correlationId then
    throw (.correlation correlationId request.header.correlationId)
  (Metadata.responses.decode body).mapError .wire

/-- What the probe leaves behind. -/
structure Outcome where
  /-- The bytes it has sent. -/
  request : Bytes := []
  /-- What it has printed. -/
  output : String := ""
  /-- The failure it has told, if any. -/
  failure : Option Failure := none
  deriving DecidableEq, Repr

/-- The exit code of the probe. -/
def Outcome.exitCode (o : Outcome) : UInt32 := if o.failure.isSome then 1 else 0

/-- What the probe has told of its failure. -/
def Outcome.errorOutput (o : Outcome) : String :=
  match o.failure with
  | some failure => "Error: " ++ failure.message ++ "\n"
  | none => ""

/-- What the probe does when `reply` is all that the broker sends. -/
def run (s : Settings) (reply : Bytes) : Outcome :=
  let prepared : Except Failure (Endpoint × Bytes) := do
    let endpoint ← endpointOf s.broker
    let frame ← (Encoder.encode s.request.encode).mapError .wire
    return (endpoint, frame)
  match prepared with
  | .error failure => { failure := some failure }
  | .ok (endpoint, request) =>
    match readReply endpoint s.request reply with
    | .error failure => { request, failure := some failure }
    | .ok responses =>
      { request, output := (Json.list (responses.map Metadata.Response.toJson)).pretty ++ "\n" }

end Probe

end BrokerWire
