import AdaptiveRate.Number.Shortest

namespace AdaptiveRate.Json

open AdaptiveRate.Number

structure Numeral where
  negative : Bool
  whole : Nat
  fraction : List Char
  exponent : Option Int
  deriving DecidableEq

namespace Numeral

def read (cs : List Char) : Option Numeral := do
  let (negative, body) := match cs with
    | '-' :: tail => (true, tail)
    | body => (false, body)
  let (whole, rest) := body.span Char.isDigit
  if whole.isEmpty || (whole.head? == some '0' && whole.length != 1) then none
  let (fraction, rest) ← match rest with
    | '.' :: tail =>
      let (digits, rest) := tail.span Char.isDigit
      if digits.isEmpty then none else some (digits, rest)
    | rest => some ([], rest)
  let exponent ← if rest.isEmpty then some none else (readExponent rest).map some
  return ⟨negative, Nat.ofDigitChars 10 whole 0, fraction, exponent⟩

def write (n : Numeral) : List Char :=
  (if n.negative then ['-'] else []) ++ Nat.toDigits 10 n.whole ++
    (if n.fraction.isEmpty then [] else '.' :: n.fraction) ++
    match n.exponent with
    | none => []
    | some e => 'e' :: (if e < 0 then '-' else '+') :: Nat.toDigits 10 e.natAbs

/-- The integer spelled by a numeral with neither fraction nor exponent, unless it is negative
zero. -/
def toInt? (n : Numeral) : Option Int :=
  if n.fraction.isEmpty && n.exponent.isNone && !(n.negative && n.whole == 0) then
    some (if n.negative then -(n.whole : Int) else n.whole)
  else none

def ofInt (z : Int) : Numeral := ⟨decide (z < 0), z.natAbs, [], none⟩

structure Significand where
  value : Nat
  exponent : Int
  full : Bool

namespace Significand

def take (s : Significand) (c : Char) (ifTaken ifLeft : Int) : Significand :=
  let next := 10 * s.value + (c.toNat - '0'.toNat)
  if !s.full && next < UInt64.size then ⟨next, s.exponent + ifTaken, false⟩
  else ⟨s.value, s.exponent + ifLeft, true⟩

/-- Once a digit does not fit, it and the rest of its part are left off. A whole digit left off
raises the exponent, a fractional one taken lowers it. -/
def ofDigits (whole fraction : List Char) : Significand :=
  let s : Significand := whole.foldl (fun (s : Significand) c ↦ s.take c 0 1) ⟨0, 0, false⟩
  fraction.foldl (fun (s : Significand) c ↦ s.take c (-1) 0) { s with full := false }

end Significand

def ten (n : Nat) : Double := .ofNat (tens n)

/-- Past one power of ten a division takes two steps, and past two nothing is left of 64 bits. -/
def divideByTens (x : Double) (n : Nat) : Double :=
  if n ≤ 308 then x / ten n
  else if n ≤ 616 then x / ten 308 / ten (n - 308)
  else .zero false

def scaled (significand : Nat) (exponent : Int) : Option Double :=
  let x : Double := .ofNat significand
  if significand = 0 then some x
  else match exponent with
    | .ofNat e =>
      if 308 < e then none
      else if (x * ten e).isFinite then some (x * ten e) else none
    | .negSucc e => some (divideByTens x (e + 1))

def toDouble? (n : Numeral) : Option Double :=
  let s := Significand.ofDigits (Nat.toDigits 10 n.whole) n.fraction
  (scaled s.value (s.exponent + n.exponent.getD 0)).map fun x ↦ if n.negative then -x else x

/-- Integers of 64 bits are rounded at once, all else by way of double precision. -/
def toSingle? (n : Numeral) : Option Single :=
  match n.toInt? with
  | some z =>
    if Int64.minValue.toInt ≤ z && z < UInt64.size then some (.ofRatio z 1)
    else n.toDouble?.map Double.toSingle
  | none => n.toDouble?.map Double.toSingle

/-- Decimal exponents from `-6` to `12` are written positionally with at least one decimal, all
others with one digit before the point. -/
def ofDecimal (negative : Bool) (d : Decimal) : Numeral :=
  let digits := Nat.toDigits 10 d.digits
  let leading := d.exponent + digits.length - 1
  if d.digits = 0 || (-6 ≤ leading && leading ≤ 12) then
    let (whole, fraction) := d.positional
    ⟨negative, whole, if fraction.isEmpty then ['0'] else fraction, none⟩
  else ⟨negative, Nat.ofDigitChars 10 (digits.take 1) 0, digits.drop 1, some leading⟩

/-- Shortest digits, a tie going to the even digit; only finite numbers have a numeral. -/
def ofSingle? : Single → Option Numeral
  | .finite s m _ => some (ofDecimal s (shortest .single .even m))
  | _ => none

end Numeral

end AdaptiveRate.Json
