import AdaptiveRate.Number.Format

namespace AdaptiveRate.Number

/-- A finite number is a sign and a whole number of units, so the two zeros stay apart and sums are
sums of integers. -/
inductive Binary (f : Format)
  | nan
  | infinite (negative : Bool)
  | finite (negative : Bool) (units : Nat) (fits : f.Fits units)
  deriving DecidableEq

abbrev Single := Binary .single

abbrev Double := Binary .double

namespace Binary

variable {f : Format}

def quotient (negative : Bool) (num den : Nat) : Binary f :=
  if h : f.round num den < f.limit then
    .finite negative (f.round num den) (f.fits_round h)
  else
    .infinite negative

def ofRatio (num : Int) (den : Nat) : Binary f :=
  quotient (decide (num < 0)) (num.natAbs * f.one) den

def ofNat (n : Nat) : Binary f := ofRatio n 1

def zero (negative : Bool) : Binary f := quotient negative 0 1

instance : Inhabited (Binary f) := ⟨zero false⟩

def isNan : Binary f → Bool
  | .nan => true
  | _ => false

def isFinite : Binary f → Bool
  | .finite .. => true
  | _ => false

def signed (negative : Bool) (units : Nat) : Int := if negative then -(units : Int) else units

/-- Position on the number line in units, with the infinities at the two ends. -/
def rank : Binary f → Option Int
  | .nan => none
  | .infinite s => some (signed s f.limit)
  | .finite s m _ => some (signed s m)

/-- The order of numbers; both zeros are equal and not-a-number is below nothing. -/
def lt (a b : Binary f) : Bool :=
  match a.rank, b.rank with
  | some x, some y => decide (x < y)
  | _, _ => false

/-- The larger of two numbers. Not-a-number gives way, and of two equal numbers, which may be the
two zeros, the second is taken. -/
def max (a b : Binary f) : Binary f :=
  match a.rank, b.rank with
  | none, _ => b
  | _, none => a
  | some x, some y => if x ≤ y then b else a

def neg : Binary f → Binary f
  | .nan => .nan
  | .infinite s => .infinite !s
  | .finite s m h => .finite (!s) m h

/-- An exact sum of zero is negative only if both summands are. -/
def add : Binary f → Binary f → Binary f
  | .nan, _ => .nan
  | _, .nan => .nan
  | .infinite s, .infinite t => if s = t then .infinite s else .nan
  | .infinite s, .finite .. => .infinite s
  | .finite .., .infinite t => .infinite t
  | .finite s m _, .finite t n _ =>
    let z := signed s m + signed t n
    if z = 0 then zero (s && t) else quotient (decide (z < 0)) z.natAbs 1

def sub (a b : Binary f) : Binary f := a.add b.neg

def mul : Binary f → Binary f → Binary f
  | .nan, _ => .nan
  | _, .nan => .nan
  | .infinite s, .infinite t => .infinite (s != t)
  | .infinite s, .finite t n _ => if n = 0 then .nan else .infinite (s != t)
  | .finite s m _, .infinite t => if m = 0 then .nan else .infinite (s != t)
  | .finite s m _, .finite t n _ => quotient (s != t) (m * n) f.one

def div : Binary f → Binary f → Binary f
  | .nan, _ => .nan
  | _, .nan => .nan
  | .infinite _, .infinite _ => .nan
  | .infinite s, .finite t .. => .infinite (s != t)
  | .finite s _ _, .infinite t => zero (s != t)
  | .finite s m _, .finite t n _ =>
    if n = 0 then if m = 0 then .nan else .infinite (s != t)
    else quotient (s != t) (m * f.one) n

instance : Neg (Binary f) := ⟨neg⟩
instance : Add (Binary f) := ⟨add⟩
instance : Sub (Binary f) := ⟨sub⟩
instance : Mul (Binary f) := ⟨mul⟩
instance : Div (Binary f) := ⟨div⟩

/-- The whole part, held between zero and `top`; not-a-number counts as zero. -/
def floorNat (top : Nat) : Binary f → Nat
  | .nan => 0
  | .infinite s => if s then 0 else top
  | .finite s m _ => if s then 0 else min top (m / f.one)

/-- The nearest whole number, halves away from zero, held between zero and `top`. -/
def roundNat (top : Nat) : Binary f → Nat
  | .nan => 0
  | .infinite s => if s then 0 else top
  | .finite s m _ => if s then 0 else min top ((2 * m + f.one) / (2 * f.one))

def convert {g : Format} : Binary f → Binary g
  | .nan => .nan
  | .infinite s => .infinite s
  | .finite s m _ => quotient s (m * g.one) f.one

end Binary

def Double.toSingle (x : Double) : Single := Binary.convert x

end AdaptiveRate.Number
