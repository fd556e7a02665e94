/-!
# Error codes of a broker

The code that a broker reports for a partition or a group. Every 16-bit number is a code; the
numbers that the protocol gives no meaning stay what they are.
-/

namespace BrokerWire

/-- What a broker reports. -/
inductive ErrorCode where
  | noError
  | unknown
  | offsetOutOfRange
  | invalidMessage
  | unknownTopicOrPartition
  | invalidMessageSize
  | leaderNotAvailable
  | notLeaderForPartition
  | requestTimedOut
  | brokerNotAvailable
  | replicaNotAvailable
  | messageSizeTooLarge
  | staleControllerEpoch
  | offsetMetadataTooLarge
  | offsetsLoadInProgress
  | consumerCoordinatorNotAvailable
  | notCoordinatorForConsumer
  /-- A number without a meaning. -/
  | unrecognized (code : Int16)
  deriving DecidableEq, Repr

namespace ErrorCode

/-- The meaning of a number. -/
def ofCode (code : Int16) : ErrorCode :=
  match code.toInt with
  | 0 => noError
  | -1 => unknown
  | 1 => offsetOutOfRange
  | 2 => invalidMessage
  | 3 => unknownTopicOrPartition
  | 4 => invalidMessageSize
  | 5 => leaderNotAvailable
  | 6 => notLeaderForPartition
  | 7 => requestTimedOut
  | 8 => brokerNotAvailable
  | 9 => replicaNotAvailable
  | 10 => messageSizeTooLarge
  | 11 => staleControllerEpoch
  | 12 => offsetMetadataTooLarge
  | 14 => offsetsLoadInProgress
  | 15 => consumerCoordinatorNotAvailable
  | 16 => notCoordinatorForConsumer
  | _ => unrecognized code

/-- The number of a code. -/
def code : ErrorCode → Int16
  | noError => 0
  | unknown => -1
  | offsetOutOfRange => 1
  | invalidMessage => 2
  | unknownTopicOrPartition => 3
  | invalidMessageSize => 4
  | leaderNotAvailable => 5
  | notLeaderForPartition => 6
  | requestTimedOut => 7
  | brokerNotAvailable => 8
  | replicaNotAvailable => 9
  | messageSizeTooLarge => 10
  | staleControllerEpoch => 11
  | offsetMetadataTooLarge => 12
  | offsetsLoadInProgress => 14
  | consumerCoordinatorNotAvailable => 15
  | notCoordinatorForConsumer => 16
  | unrecognized code => code

/-- The name of a code with a meaning, or the number of one without. -/
def name : ErrorCode → Except Int16 String
  | noError => .ok "NoError"
  | unknown => .ok "Unknown"
  | offsetOutOfRange => .ok "OffsetOutOfRange"
  | invalidMessage => .ok "InvalidMessage"
  | unknownTopicOrPartition => .ok "UnknownTopicOrPartition"
  | invalidMessageSize => .ok "InvalidMessageSize"
  | leaderNotAvailable => .ok "LeaderNotAvailable"
  | notLeaderForPartition => .ok "NotLeaderForPartition"
  | requestTimedOut => .ok "RequestTimedOut"
  | brokerNotAvailable => .ok "BrokerNotAvailable"
  | replicaNotAvailable => .ok "ReplicaNotAvailable"
  | messageSizeTooLarge => .ok "MessageSizeTooLarge"
  | staleControllerEpoch => .ok "StaleControllerEpoch"
  | offsetMetadataTooLarge => .ok "OffsetMetadataTooLarge"
  | offsetsLoadInProgress => .ok "OffsetsLoadInProgress"
  | consumerCoordinatorNotAvailable => .ok "ConsumerCoordinatorNotAvailable"
  | notCoordinatorForConsumer => .ok "NotCoordinatorForConsumer"
  | unrecognized code => .error code

/-- Whether nothing went wrong. -/
def isOk (e : ErrorCode) : Bool := e = noError

/-- The numbers that the protocol gives a meaning, with their meanings. -/
def meanings : List (Int16 × ErrorCode) :=
  [(0, noError), (-1, unknown), (1, offsetOutOfRange), (2, invalidMessage),
    (3, unknownTopicOrPartition), (4, invalidMessageSize), (5, leaderNotAvailable),
    (6, notLeaderForPartition), (7, requestTimedOut), (8, brokerNotAvailable),
    (9, replicaNotAvailable), (10, messageSizeTooLarge), (11, staleControllerEpoch),
    (12, offsetMetadataTooLarge), (14, offsetsLoadInProgress),
    (15, consumerCoordinatorNotAvailable), (16, notCoordinatorForConsumer)]

/-- The listed numbers have the listed meanings, and all others have none. -/
theorem ofCode_eq_lookup (code : Int16) :
    ofCode code = (meanings.lookup code).getD (unrecognized code) := by
  unfold ofCode
  split
  case h_18 =>
    have hlookup : meanings.lookup code = none := by
      simp_all [meanings, List.lookup_eq_none_iff, ← Int16.toInt_inj]
    rw [hlookup]
    rfl
  -- every other case is about one number
  all_goals
    rename_i h
    have hcode := congrArg Int16.ofInt h
    rw [Int16.ofInt_toInt] at hcode
    subst hcode
    rfl

end ErrorCode

end BrokerWire
