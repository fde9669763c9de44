import AdaptiveRate.Simulation

namespace AdaptiveRate.CommandLine

open AdaptiveRate.Number

structure Opt where
  long : String
  short : Option Char := none
  takesValue : Bool := true
  hyphens : Bool := false
  repeats : Bool := false
  accepts : String → Bool := fun _ ↦ true

structure Grammar where
  options : List Opt
  limit : Option Nat := some 0
  acceptsPositional : String → Bool := fun _ ↦ true

/-- Options found so far by their long names, positional arguments under the empty name. -/
abbrev Found := List (String × String)

inductive Reading
  | plain
  | escape
  | found (options : List (Opt × String))
  | wants (options : List (Opt × String)) (o : Opt)
  | help (options : List (Opt × String))
  | misuse

def readLong (g : Grammar) (body : List Char) : Reading :=
  let name := String.ofList (body.takeWhile (· ≠ '='))
  let value := match body.dropWhile (· ≠ '=') with
    | _ :: v => some (String.ofList v)
    | [] => none
  match g.options.find? (·.long == name), value with
  | some o, some v => if o.takesValue then .found [(o, v)] else .misuse
  | some o, none => if o.takesValue then .wants [] o else .found [(o, "")]
  | none, none => if name = "help" then .help [] else .misuse
  | none, some _ => .misuse

/-- Short names may be run together; the rest after one that takes a value is the value. -/
def readShort (g : Grammar) (before : List (Opt × String)) : List Char → Reading
  | [] => .found before
  | c :: rest =>
    match g.options.find? (·.short == some c) with
    | some o =>
      if !o.takesValue then readShort g (before ++ [(o, "")]) rest
      else match rest with
        | [] => .wants before o
        | '=' :: v => .found (before ++ [(o, String.ofList v)])
        | v => .found (before ++ [(o, String.ofList v)])
    | none => if c = 'h' then .help before else .misuse

def isPlain (s : String) : Bool :=
  match s.toList with
  | ['-'] => true
  | '-' :: _ => false
  | _ => true

def Reading.ofString (g : Grammar) (s : String) : Reading :=
  match s.toList with
  | ['-', '-'] => .escape
  | '-' :: '-' :: body => readLong g body
  | ['-'] => .plain
  | '-' :: body => readShort g [] body
  | _ => .plain

def addOption (found : Found) (o : Opt) (value : String) : Option Found :=
  if !o.accepts value || (!o.repeats && found.any (·.1 == o.long)) then none
  else some (found ++ [(o.long, value)])

def addOptions (found : Found) (options : List (Opt × String)) : Option Found :=
  options.foldlM (fun found (o, v) ↦ addOption found o v) found

def addPositional (g : Grammar) (found : Found) (value : String) : Option Found :=
  let room := match g.limit with
    | some n => (found.filter (·.1 == "")).length < n
    | none => true
  if room && g.acceptsPositional value then some (found ++ [("", value)]) else none

/-- The value given last to an option, in an argument of its own and not yet looked at. -/
abbrev Pending := Option (Opt × String)

def settle (found : Found) : Pending → Option Found
  | some (o, value) => addOption found o value
  | none => some found

inductive Ending
  | all (found : Found)
  | command (found : Found) (pending : Pending) (name : String) (rest : List String)
  | help
  | misuse

/-- Reads a level up to its end, or up to the name of a command where there is one to come. A value
in an argument of its own is looked at when the next argument of the level is read, so the name of a
command leaves it pending. -/
def scan (g : Grammar) (commands : Bool) (found : Found) (pending : Pending) :
    List String → Ending
  | [] =>
    match settle found pending with
    | some found => .all found
    | none => .misuse
  | arg :: rest =>
    match Reading.ofString g arg with
    | .plain =>
      if commands then .command found pending arg rest
      else match (settle found pending).bind (addPositional g · arg) with
        | some found => scan g commands found none rest
        | none => .misuse
    | .escape =>
      match (settle found pending).bind (rest.foldlM (addPositional g)) with
      | some found => .all found
      | none => .misuse
    | .found options =>
      match (settle found pending).bind (addOptions · options) with
      | some found => scan g commands found none rest
      | none => .misuse
    | .wants options o =>
      match (settle found pending).bind (addOptions · options), rest with
      | some found, value :: rest =>
        if isPlain value || o.hyphens then scan g commands found (some (o, value)) rest
        else .misuse
      | _, _ => .misuse
    | .help options =>
      match (settle found pending).bind (addOptions · options) with
      | some _ => .help
      | none => .misuse
    | .misuse => .misuse

def readInt (low high : Int) (s : String) : Option Int :=
  let (negative, digits) := splitSign s.toList
  if digits.isEmpty || !digits.all Char.isDigit then none
  else
    let n : Int := Nat.ofDigitChars 10 digits 0
    (some (if negative then -n else n)).filter fun z ↦ low ≤ z && z ≤ high

def readUInt8 (s : String) : Option UInt8 :=
  (readInt 0 (UInt8.size - 1) s).map fun z ↦ .ofNat z.toNat

def readUInt32 (s : String) : Option UInt32 :=
  (readInt 0 (UInt32.size - 1) s).map fun z ↦ .ofNat z.toNat

def splitCommas : List Char → List String
  | [] => [""]
  | ',' :: cs => "" :: splitCommas cs
  | c :: cs =>
    match splitCommas cs with
    | part :: parts => (c.toString ++ part) :: parts
    | [] => [c.toString]

def readCounters (s : String) : Option (List UInt32) := (splitCommas s.toList).mapM readUInt32

inductive Command
  | encode (dataRate txPower : UInt8) (mask : String) (maskControl transmissions : UInt8)
  | decode (payload : String)
  | loss (counters : List UInt32)
  | simulate (s : Simulation)
  deriving DecidableEq

structure Invocation where
  config : Option String
  verbose : Bool
  command : Command
  deriving DecidableEq

inductive CommandName
  | encode
  | decode
  | loss
  | simulate
  | help
  deriving DecidableEq

def CommandName.ofString? : String → Option CommandName
  | "encode" => some .encode
  | "decode" => some .decode
  | "loss" => some .loss
  | "simulate" => some .simulate
  | "help" => some .help
  | _ => none

def sharedOptions : List Opt :=
  [{ long := "config", short := some 'c', accepts := (· ≠ "") },
    { long := "verbose", short := some 'v', takesValue := false }]

def byteOption (long : String) : Opt := { long, accepts := fun s ↦ (readUInt8 s).isSome }

def CommandName.grammar : CommandName → Grammar
  | .encode =>
    { options := sharedOptions ++ [byteOption "data-rate", byteOption "tx-power",
        { long := "ch-mask" }, byteOption "ch-mask-cntl", byteOption "nb-trans"] }
  | .decode => { options := sharedOptions, limit := some 1 }
  | .loss =>
    { options := sharedOptions, limit := none,
      acceptsPositional := fun s ↦ (readCounters s).isSome }
  | .simulate =>
    { options := sharedOptions ++ [{ long := "band" }, { long := "data-rate" },
        { long := "snr", hyphens := true,
          accepts := fun s ↦ (Binary.read s : Option Single).isSome },
        { long := "frames", accepts := fun s ↦ (readUInt32 s).isSome },
        { long := "lost", repeats := true, accepts := fun s ↦ (readCounters s).isSome },
        byteOption "nb-trans"] }
  | .help => { options := [], limit := none }

namespace Found

def values (found : Found) (name : String) : List String :=
  (found.filter (·.1 == name)).map Prod.snd

def value? (found : Found) (name : String) : Option String := (found.values name).head?

def getD {α : Type} (found : Found) (name : String) (read : String → Option α) (default : α) :
    Option α :=
  match found.value? name with
  | some v => read v
  | none => some default

end Found

def CommandName.interpret (found : Found) : CommandName → Option Command
  | .encode => do
    return .encode (← readUInt8 (← found.value? "data-rate"))
      (← readUInt8 (← found.value? "tx-power")) (← found.getD "ch-mask" some "00FF")
      (← found.getD "ch-mask-cntl" readUInt8 0) (← found.getD "nb-trans" readUInt8 1)
  | .decode => do return .decode (← found.value? "")
  | .loss => do
    let counters := (← (found.values "").mapM readCounters).flatten
    if counters.isEmpty then none else return .loss counters
  | .simulate => do
    let s : Simulation := {}
    return .simulate
      { band := ← found.getD "band" some s.band
        dataRate := ← found.getD "data-rate" some s.dataRate
        snr := ← found.getD "snr" Binary.read s.snr
        frames := ← found.getD "frames" readUInt32 s.frames
        lost := (← (found.values "lost").mapM readCounters).flatten
        transmissions := ← found.getD "nb-trans" readUInt8 s.transmissions }
  | .help => none

inductive Request
  | run (i : Invocation)
  | help (topic : Option CommandName)
  | misuse

/-- The arguments after the name of a command. A shared option given here takes precedence over
the same option given before the command. What is pending from before the command is looked at last,
so that help is given in spite of it. -/
def readCommand (before : Found) (pending : Pending) (name : CommandName) (args : List String) :
    Request :=
  match scan name.grammar false [] none args with
  | .help => .help (some name)
  | .all found =>
    match name.interpret found, settle before pending with
    | some command, some before => .run
      { config := (found.value? "config").or (before.value? "config")
        verbose := (found.value? "verbose").isSome || (before.value? "verbose").isSome
        command }
    | _, _ => .misuse
  | _ => .misuse

def readHelp : List String → Request
  | [] => .help none
  | [topic] =>
    match CommandName.ofString? topic with
    | some name => .help (some name)
    | none => .misuse
  | _ => .misuse

def Request.read (args : List String) : Request :=
  match scan { options := sharedOptions } true [] none args with
  | .help => .help none
  | .command found pending word rest =>
    match CommandName.ofString? word with
    | some .help => readHelp rest
    | some name => readCommand found pending name rest
    | none => .misuse
  | _ => .misuse

end AdaptiveRate.CommandLine
