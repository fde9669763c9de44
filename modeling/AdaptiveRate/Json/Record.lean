import AdaptiveRate.Json.Reader

namespace AdaptiveRate.Json

open AdaptiveRate.Number

class Codec (α : Type) where
  encode : α → Json
  decode : Json → Option α

export Codec (encode decode)

def decodeInt (low high : Int) : Json → Option Int
  | .number n => n.toInt?.filter fun z ↦ low ≤ z && z ≤ high
  | _ => none

instance : Codec UInt8 where
  encode n := .number (.ofInt n.toNat)
  decode j := (decodeInt 0 (UInt8.size - 1) j).map fun z ↦ .ofNat z.toNat

instance : Codec UInt32 where
  encode n := .number (.ofInt n.toNat)
  decode j := (decodeInt 0 (UInt32.size - 1) j).map fun z ↦ .ofNat z.toNat

instance : Codec UInt64 where
  encode n := .number (.ofInt n.toNat)
  decode j := (decodeInt 0 (UInt64.size - 1) j).map fun z ↦ .ofNat z.toNat

instance : Codec Int8 where
  encode n := .number (.ofInt n.toInt)
  decode j := (decodeInt Int8.minValue.toInt Int8.maxValue.toInt j).map Int8.ofInt

instance : Codec Bool where
  encode := .bool
  decode
    | .bool b => some b
    | _ => none

instance : Codec String where
  encode s := .string (some s)
  decode
    | .string t => t
    | _ => none

/-- Only finite numbers have a numeral; the others are written as null and cannot be read back. -/
instance : Codec Single where
  encode x := match Numeral.ofSingle? x with
    | some n => .number n
    | none => .null
  decode
    | .number n => n.toSingle?
    | _ => none

instance {α : Type} [Codec α] : Codec (Option α) where
  encode
    | some a => encode a
    | none => .null
  decode
    | .null => some none
    | j => (decode j).map some

structure Fields where
  named : Bool
  entries : List (String × Json)

namespace Fields

/-- A record is an object with named fields or an array of its fields in order. Fields of other
names are passed over, a field given twice is refused. -/
def read (names : List String) : Json → Option Fields
  | .array items =>
    if items.length ≤ names.length then some ⟨false, names.zip items⟩ else none
  | .object members => do
    let entries ← members.mapM fun (key, v) ↦ key.map (·, v)
    let known := entries.filter (·.1 ∈ names)
    if (known.map (·.1)).Nodup then some ⟨true, known⟩ else none
  | _ => none

variable {α : Type} [Codec α]

def require (f : Fields) (name : String) : Option α := (f.entries.lookup name).bind decode

def getD (f : Fields) (name : String) (default : α) : Option α :=
  match f.entries.lookup name with
  | some v => decode v
  | none => some default

/-- A missing name stands for none; a missing position does not. -/
def optional (f : Fields) (name : String) : Option (Option α) :=
  match f.entries.lookup name with
  | some v => decode v
  | none => if f.named then some none else none

end Fields

def record (members : List (String × Json)) : Json :=
  .object (members.map fun (k, v) ↦ (some k, v))

end AdaptiveRate.Json
