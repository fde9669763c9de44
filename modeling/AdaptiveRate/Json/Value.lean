import AdaptiveRate.Json.Numeral

namespace AdaptiveRate

/-- Text of a string; none when its escapes leave half of a surrogate pair alone. -/
abbrev Json.Text := Option String

inductive Json
  | null
  | bool (value : Bool)
  | number (numeral : Json.Numeral)
  | string (text : Json.Text)
  | array (items : List Json)
  | object (members : List (Json.Text × Json))

namespace Json

def escape (c : Char) : List Char :=
  match c with
  | '"' => ['\\', '"']
  | '\\' => ['\\', '\\']
  | '\x08' => ['\\', 'b']
  | '\x0c' => ['\\', 'f']
  | '\n' => ['\\', 'n']
  | '\r' => ['\\', 'r']
  | '\t' => ['\\', 't']
  | c =>
    if c.toNat < 32 then
      ['\\', 'u', '0', '0', Nat.digitChar (c.toNat / 16), Nat.digitChar (c.toNat % 16)]
    else [c]

def quote (s : Text) : List Char := '"' :: (s.getD "").toList.flatMap escape ++ ['"']

def writeAtom : Json → List Char
  | .null => "null".toList
  | .bool b => if b then "true".toList else "false".toList
  | .number n => n.write
  | .string s => quote s
  | .array _ => "[]".toList
  | .object _ => "\x7b\x7d".toList

structure Layout where
  line : Nat → List Char
  colon : List Char

def Layout.compact : Layout := ⟨fun _ ↦ [], [':']⟩

def Layout.pretty : Layout := ⟨fun depth ↦ '\n' :: List.replicate (2 * depth) ' ', [':', ' ']⟩

mutual

def write (l : Layout) (depth : Nat) : Json → List Char
  | .array (v :: vs) =>
    '[' :: l.line (depth + 1) ++ write l (depth + 1) v ++ writeItems l depth vs
  | .object ((k, v) :: ms) =>
    '\x7b' :: l.line (depth + 1) ++ quote k ++ l.colon ++ write l (depth + 1) v ++
      writeMembers l depth ms
  | v => writeAtom v

def writeItems (l : Layout) (depth : Nat) : List Json → List Char
  | [] => l.line depth ++ [']']
  | v :: vs => ',' :: l.line (depth + 1) ++ write l (depth + 1) v ++ writeItems l depth vs

def writeMembers (l : Layout) (depth : Nat) : List (Text × Json) → List Char
  | [] => l.line depth ++ ['\x7d']
  | (k, v) :: ms =>
    ',' :: l.line (depth + 1) ++ quote k ++ l.colon ++ write l (depth + 1) v ++
      writeMembers l depth ms

end

def compact (v : Json) : String := String.ofList (v.write .compact 0)

def pretty (v : Json) : String := String.ofList (v.write .pretty 0)

end Json

end AdaptiveRate
