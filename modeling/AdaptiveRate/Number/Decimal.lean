import AdaptiveRate.Number.Binary

namespace AdaptiveRate.Number

def tens (n : Nat) : Nat := .pow 10 n

/-- The magnitude `digits * 10 ^ exponent`. -/
structure Decimal where
  digits : Nat
  exponent : Int
  deriving DecidableEq

def paddedDigits (width n : Nat) : List Char :=
  List.replicate (width - (Nat.toDigits 10 n).length) '0' ++ Nat.toDigits 10 n

namespace Decimal

def positional (d : Decimal) : Nat × List Char :=
  match d.exponent with
  | .ofNat e => (d.digits * tens e, [])
  | .negSucc e => (d.digits / tens (e + 1), paddedDigits (e + 1) (d.digits % tens (e + 1)))

def plain (d : Decimal) : String :=
  match d.positional with
  | (whole, []) => Nat.repr whole
  | (whole, fraction) => Nat.repr whole ++ "." ++ String.ofList fraction

/-- The number of a format nearest to a decimal. Exponents so large or so small that the outcome
is settled are not multiplied out. -/
def toBinary {f : Format} (negative : Bool) (d : Decimal) : Binary f :=
  if d.digits = 0 then .zero negative
  else match d.exponent with
    | .ofNat e =>
      if f.width < e then .infinite negative
      else .quotient negative (d.digits * tens e * f.one) 1
    | .negSucc e =>
      if f.scale + (Nat.toDigits 10 d.digits).length < e then .zero negative
      else .quotient negative (d.digits * f.one) (tens (e + 1))

end Decimal

def splitSign : List Char → Bool × List Char
  | '-' :: cs => (true, cs)
  | '+' :: cs => (false, cs)
  | cs => (false, cs)

def readExponent : List Char → Option Int
  | [] => some 0
  | c :: cs =>
    let (negative, digits) := splitSign cs
    if (c = 'e' || c = 'E') && !digits.isEmpty && digits.all Char.isDigit then
      let n := Nat.ofDigitChars 10 digits 0
      some (if negative then -(n : Int) else n)
    else none

def Decimal.read (cs : List Char) : Option Decimal := do
  let (whole, rest) := cs.span Char.isDigit
  let (fraction, rest) := match rest with
    | '.' :: tail => tail.span Char.isDigit
    | rest => ([], rest)
  if whole.isEmpty && fraction.isEmpty then none
  let e ← readExponent rest
  return ⟨Nat.ofDigitChars 10 (whole ++ fraction) 0, e - fraction.length⟩

def Binary.read {f : Format} (s : String) : Option (Binary f) :=
  let (negative, body) := splitSign s.toList
  let word := String.ofList (body.map Char.toLower)
  if word = "inf" || word = "infinity" then some (.infinite negative)
  else if word = "nan" then some .nan
  else (Decimal.read body).map (·.toBinary negative)

end AdaptiveRate.Number
