import AdaptiveRate.Json.Value

namespace AdaptiveRate.Json

inductive Token
  | openArray
  | closeArray
  | openObject
  | closeObject
  | comma
  | colon
  | atom (value : Json)
  | text (text : Text)

structure Quoted where
  chars : List Char
  intact : Bool
  /-- First half of a surrogate pair, waiting for the second. -/
  high : Option Nat

namespace Quoted

def empty : Quoted := ⟨[], true, none⟩

def push (q : Quoted) (c : Char) : Quoted := ⟨c :: q.chars, q.intact && q.high.isNone, none⟩

def pushUnit (q : Quoted) (u : Nat) : Quoted :=
  if 0xD800 ≤ u && u < 0xDC00 then ⟨q.chars, q.intact && q.high.isNone, some u⟩
  else if 0xDC00 ≤ u && u < 0xE000 then
    match q.high with
    | some h =>
      ⟨Char.ofNat (0x10000 + (h - 0xD800) * 0x400 + (u - 0xDC00)) :: q.chars, q.intact, none⟩
    | none => ⟨q.chars, false, none⟩
  else q.push (Char.ofNat u)

def text (q : Quoted) : Text :=
  if q.intact && q.high.isNone then some (String.ofList q.chars.reverse) else none

end Quoted

inductive Mode
  | outside (word : List Char)
  | inside (q : Quoted)
  | escape (q : Quoted)
  | unit (q : Quoted) (count value : Nat)

structure Lexer where
  tokens : List Token
  mode : Mode

namespace Lexer

def start : Lexer := ⟨[], .outside []⟩

def mark (c : Char) : Option Token :=
  match c with
  | '[' => some .openArray
  | ']' => some .closeArray
  | '\x7b' => some .openObject
  | '\x7d' => some .closeObject
  | ',' => some .comma
  | ':' => some .colon
  | _ => none

def isBlank (c : Char) : Bool := c = ' ' || c = '\n' || c = '\r' || c = '\t'

def hexDigit (c : Char) : Option Nat :=
  if '0' ≤ c && c ≤ '9' then some (c.toNat - '0'.toNat)
  else if 'a' ≤ c && c ≤ 'f' then some (c.toNat - 'a'.toNat + 10)
  else if 'A' ≤ c && c ≤ 'F' then some (c.toNat - 'A'.toNat + 10)
  else none

def readWord (cs : List Char) : Option Json :=
  if cs = "null".toList then some .null
  else if cs = "true".toList then some (.bool true)
  else if cs = "false".toList then some (.bool false)
  else (Numeral.read cs).map .number

def flush (tokens : List Token) (word : List Char) : Option (List Token) :=
  if word.isEmpty then some tokens else (readWord word.reverse).map (.atom · :: tokens)

def stepOutside (tokens : List Token) (word : List Char) (c : Char) : Option Lexer :=
  match mark c with
  | some t => (flush tokens word).map fun ts ↦ ⟨t :: ts, .outside []⟩
  | none =>
    if isBlank c then (flush tokens word).map fun ts ↦ ⟨ts, .outside []⟩
    else if c = '"' then (flush tokens word).map fun ts ↦ ⟨ts, .inside .empty⟩
    else some ⟨tokens, .outside (c :: word)⟩

def unescape (c : Char) : Option Char :=
  match c with
  | '"' => some '"'
  | '\\' => some '\\'
  | '/' => some '/'
  | 'b' => some '\x08'
  | 'f' => some '\x0c'
  | 'n' => some '\n'
  | 'r' => some '\r'
  | 't' => some '\t'
  | _ => none

def step (l : Lexer) (c : Char) : Option Lexer :=
  match l.mode with
  | .outside word => stepOutside l.tokens word c
  | .inside q =>
    if c = '"' then some ⟨.text q.text :: l.tokens, .outside []⟩
    else if c = '\\' then some ⟨l.tokens, .escape q⟩
    else if c.toNat < 32 then none
    else some ⟨l.tokens, .inside (q.push c)⟩
  | .escape q =>
    if c = 'u' then some ⟨l.tokens, .unit q 0 0⟩
    else (unescape c).map fun d ↦ ⟨l.tokens, .inside (q.push d)⟩
  | .unit q count value =>
    (hexDigit c).map fun d ↦
      if count = 3 then ⟨l.tokens, .inside (q.pushUnit (16 * value + d))⟩
      else ⟨l.tokens, .unit q (count + 1) (16 * value + d)⟩

def finish (l : Lexer) : Option (List Token) :=
  match l.mode with
  | .outside word => (flush l.tokens word).map List.reverse
  | _ => none

end Lexer

def tokens (cs : List Char) : Option (List Token) := do
  (← cs.foldlM Lexer.step .start).finish

inductive Container
  | array (items : List Json)
  | object (members : List (Text × Json)) (key : Text)

inductive Builder
  | value (around : List Container)
  | arrayStart (around : List Container)
  | arrayNext (items : List Json) (around : List Container)
  | objectStart (around : List Container)
  | objectKey (members : List (Text × Json)) (around : List Container)
  | objectColon (members : List (Text × Json)) (key : Text) (around : List Container)
  | objectNext (members : List (Text × Json)) (around : List Container)
  | done (value : Json)

namespace Builder

def place (v : Json) : List Container → Builder
  | [] => .done v
  | .array items :: around => .arrayNext (v :: items) around
  | .object members key :: around => .objectNext ((key, v) :: members) around

def openValue (around : List Container) : Token → Option Builder
  | .atom v => some (place v around)
  | .text t => some (place (.string t) around)
  | .openArray => some (.arrayStart around)
  | .openObject => some (.objectStart around)
  | _ => none

def step : Builder → Token → Option Builder
  | .value around, t => openValue around t
  | .arrayStart around, .closeArray => some (place (.array []) around)
  | .arrayStart around, t => openValue (.array [] :: around) t
  | .arrayNext items around, .comma => some (.value (.array items :: around))
  | .arrayNext items around, .closeArray => some (place (.array items.reverse) around)
  | .objectStart around, .closeObject => some (place (.object []) around)
  | .objectStart around, .text key => some (.objectColon [] key around)
  | .objectKey members around, .text key => some (.objectColon members key around)
  | .objectColon members key around, .colon => some (.value (.object members key :: around))
  | .objectNext members around, .comma => some (.objectKey members around)
  | .objectNext members around, .closeObject => some (place (.object members.reverse) around)
  | _, _ => none

end Builder

def ofTokens (ts : List Token) : Option Json := do
  match ← ts.foldlM Builder.step (.value []) with
  | .done v => some v
  | _ => none

/-- Characters are folded into tokens and tokens into a value, each one symbol at a time, so a text
of any depth is read in one pass. -/
def parse (s : String) : Option Json := do
  ofTokens (← tokens s.toList)

end AdaptiveRate.Json
