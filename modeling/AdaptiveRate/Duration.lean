import AdaptiveRate.Number.Decimal

namespace AdaptiveRate

open AdaptiveRate.Number

structure Duration where
  seconds : Nat
  nanos : Nat
  nanos_lt : nanos < 1000000000
  deriving DecidableEq

namespace Duration

def ofMillis (ms : Nat) : Duration := ⟨ms / 1000, ms % 1000 * 1000000, by omega⟩

/-- Nanoseconds past a second are carried over; the seconds of the whole span have 64 bits. -/
def ofParts? (seconds nanos : Nat) : Option Duration :=
  if seconds + nanos / 1000000000 < UInt64.size then
    some ⟨seconds + nanos / 1000000000, nanos % 1000000000, by omega⟩
  else none

def decimal (whole places fraction : Nat) : String :=
  let digits := ((paddedDigits places fraction).reverse.dropWhile (· == '0')).reverse
  Nat.repr whole ++ if digits.isEmpty then "" else "." ++ String.ofList digits

/-- The value in the largest unit in which it is at least one. -/
def text (d : Duration) : String :=
  if 0 < d.seconds then decimal d.seconds 9 d.nanos ++ "s"
  else if 1000000 ≤ d.nanos then decimal (d.nanos / 1000000) 6 (d.nanos % 1000000) ++ "ms"
  else if 1000 ≤ d.nanos then decimal (d.nanos / 1000) 3 (d.nanos % 1000) ++ "µs"
  else Nat.repr d.nanos ++ "ns"

instance : ToString Duration := ⟨text⟩

end Duration

end AdaptiveRate
