namespace AdaptiveRate.Hex

def lower (bytes : List UInt8) : String :=
  String.ofList (bytes.flatMap fun b ↦ [Nat.digitChar (b.toNat / 16), Nat.digitChar (b.toNat % 16)])

def upper (bytes : List UInt8) : String := (lower bytes).map Char.toUpper

inductive Fault
  | oddLength
  | badDigit (byte : UInt8) (position : Nat)
  deriving DecidableEq

/-- A byte that is no digit, shown as the character of that code; invisible ones are escaped. -/
def showByte (b : UInt8) : String :=
  let c := Char.ofNat b.toNat
  match c with
  | '\x00' => "'\\0'"
  | '\t' => "'\\t'"
  | '\n' => "'\\n'"
  | '\r' => "'\\r'"
  | '\'' => "'\\''"
  | '\\' => "'\\\\'"
  | c =>
    if b < 0x20 || (0x7f ≤ b && b ≤ 0xa0) || b = 0xad then
      "'\\u\x7b" ++ String.ofList (Nat.toDigits 16 b.toNat) ++ "\x7d'"
    else "'" ++ c.toString ++ "'"

def Fault.message : Fault → String
  | .oddLength => "Odd number of digits"
  | .badDigit b i => "Invalid character " ++ showByte b ++ " at position " ++ toString i

def digit (b : UInt8) : Option UInt8 :=
  if 0x30 ≤ b && b ≤ 0x39 then some (b - 0x30)
  else if 0x41 ≤ b && b ≤ 0x46 then some (b - 0x41 + 10)
  else if 0x61 ≤ b && b ≤ 0x66 then some (b - 0x61 + 10)
  else none

def decodeFrom (position : Nat) : List UInt8 → Except Fault (List UInt8)
  | a :: b :: rest =>
    match digit a, digit b with
    | some x, some y => (decodeFrom (position + 2) rest).map ((x <<< 4 ||| y) :: ·)
    | none, _ => .error (.badDigit a position)
    | _, none => .error (.badDigit b (position + 1))
  | _ => .ok []

def decode (text : List UInt8) : Except Fault (List UInt8) :=
  if text.length % 2 = 1 then .error .oddLength else decodeFrom 0 text

end AdaptiveRate.Hex
