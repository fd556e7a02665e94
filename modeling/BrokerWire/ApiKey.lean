/-!
# Protocol numbers

The kinds of request a broker knows, and the numbers and names that every client of version 0 of
the protocol uses.
-/

namespace BrokerWire

/-- The version of every request. -/
def apiVersion : Int16 := 0

/-- The replica number of a client that is no broker. -/
def clientReplicaId : Int32 := -1

/-- The client id of a request that sets none. -/
def defaultClientId : String := "thorwire"

/-- The kinds of request that a broker knows. -/
inductive ApiKey where
  | produce
  | fetch
  | offset
  | metadata
  | leaderAndIsr
  | stopReplica
  | offsetCommit
  | offsetFetch
  | consumerMetadata
  deriving DecidableEq, Repr

namespace ApiKey

/-- The number of a kind of request. -/
def code : ApiKey → Int16
  | produce => 0
  | fetch => 1
  | offset => 2
  | metadata => 3
  | leaderAndIsr => 4
  | stopReplica => 5
  | offsetCommit => 8
  | offsetFetch => 9
  | consumerMetadata => 10

/-- The name of a kind of request. -/
def name : ApiKey → String
  | produce => "Produce"
  | fetch => "Fetch"
  | offset => "Offset"
  | metadata => "Metadata"
  | leaderAndIsr => "LeaderAndIsr"
  | stopReplica => "StopReplica"
  | offsetCommit => "OffsetCommit"
  | offsetFetch => "OffsetFetch"
  | consumerMetadata => "ConsumerMetadata"

/-- All kinds of request. -/
def all : List ApiKey :=
  [produce, fetch, offset, metadata, leaderAndIsr, stopReplica, offsetCommit, offsetFetch,
    consumerMetadata]

/-- The kind of request that has a name. -/
def ofName? (name : String) : Option ApiKey :=
  all.find? fun key => key.name == name

end ApiKey

end BrokerWire
