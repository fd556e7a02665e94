/-!
# Durations

Lengths of time in whole nanoseconds, up to a longest one of `2 ^ 64 - 1` seconds and 999999999
nanoseconds. A product that would be longer than that does not exist.
-/

namespace BrokerWire

/-- The nanoseconds of the longest duration. -/
def longestNanos : Nat := 18446744073709551615 * 1000000000 + 999999999

/-- A length of time. -/
structure Duration where
  /-- Its nanoseconds. -/
  nanos : Nat
  nanos_le : nanos ≤ longestNanos := by decide
  deriving DecidableEq, Repr

namespace Duration

/-- The nanoseconds of a millisecond. -/
def nanosPerMilli : Nat := 1000000

/-- A number of milliseconds, or the longest duration if they are more. -/
def ofMillis (millis : Nat) : Duration :=
  ⟨min (millis * nanosPerMilli) longestNanos, Nat.min_le_right ..⟩

/-- A multiple of a duration, if there is such a duration. -/
def times? (d : Duration) (factor : UInt32) : Option Duration :=
  if h : d.nanos * factor.toNat ≤ longestNanos then some ⟨d.nanos * factor.toNat, h⟩ else none

/-- The wait after the next failure when this was the wait after the last one: multiplied, or
unchanged where the product does not exist. -/
def backoff (d : Duration) (factor : UInt32) : Duration :=
  (d.times? factor).getD d

end Duration

end BrokerWire
