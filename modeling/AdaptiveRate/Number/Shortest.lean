import AdaptiveRate.Number.Decimal

namespace AdaptiveRate.Number

inductive Tie
  | up
  | even
  deriving DecidableEq

structure Interval where
  lower : Nat
  upper : Nat
  closed : Bool

def Interval.contains (i : Interval) (x : Nat) : Bool :=
  if i.closed then i.lower ≤ x && x ≤ i.upper else i.lower < x && x < i.upper

namespace Format

variable (f : Format)

def decimalUnit : Nat := .pow 5 f.scale

/-- Magnitudes are counted here in quarters of `10 ^ -scale`, which makes the halfway points between
neighbouring numbers whole. -/
def fine (units : Nat) : Nat := 4 * units * f.decimalUnit

/-- The reals that round to a number. Below a power of two the neighbour is half as far. -/
def roundingInterval (units : Nat) : Interval :=
  let ulp := f.ulp units
  let below := if 2 * units = .pow 2 f.precision * ulp && ulp ≠ 1 then ulp else 2 * ulp
  { lower := (4 * units - below) * f.decimalUnit
    upper := (4 * units + 2 * ulp) * f.decimalUnit
    closed := units / ulp % 2 == 0 }

end Format

def nearestOnGrid (tie : Tie) (i : Interval) (v grid : Nat) : Option Nat :=
  let c := v / grid
  match i.contains (c * grid), i.contains ((c + 1) * grid) with
  | false, false => none
  | true, false => some c
  | false, true => some (c + 1)
  | true, true =>
    match compare (2 * (v % grid)) grid with
    | .lt => some c
    | .gt => some (c + 1)
    | .eq => some (if tie = .even && c % 2 = 0 then c else c + 1)

def shortestFrom (f : Format) (tie : Tie) (units : Nat) : Nat → Decimal
  | 0 => ⟨units * f.decimalUnit, -(f.scale : Int)⟩
  | n + 1 =>
    match nearestOnGrid tie (f.roundingInterval units) (f.fine units) (4 * tens (n + 1)) with
    | some c => ⟨c, (n + 1 : Int) - f.scale⟩
    | none => shortestFrom f tie units n

/-- The point nearest to a number on the coarsest power-of-ten grid that meets its interval. -/
def shortest (f : Format) (tie : Tie) (units : Nat) : Decimal :=
  if units = 0 then ⟨0, 0⟩
  else shortestFrom f tie units (Nat.toDigits 10 (f.roundingInterval units).upper).length

namespace Binary

def plain {f : Format} : Binary f → String
  | .nan => "NaN"
  | .infinite s => if s then "-inf" else "inf"
  | .finite s m _ => (if s then "-" else "") ++ (shortest f .up m).plain

instance {f : Format} : ToString (Binary f) := ⟨plain⟩

end Binary

end AdaptiveRate.Number
