import AdaptiveRate.CommandLine.Usage
import AdaptiveRate.Config.File
import AdaptiveRate.Text.Blank

namespace AdaptiveRate.CommandLine

open AdaptiveRate.Mac (LinkRequest)

structure Exit where
  code : Nat
  stdout : String
  stderr : String
  log : List LogRecord
  deriving DecidableEq

inductive Failure
  | plain (message : String)
  | within (context cause : String)
  | crash (c : Crash)

def Failure.ofStop : Stop → Failure
  | .error e => .plain e.message
  | .crash c => .crash c

namespace Exit

def success (stdout : String) (log : List LogRecord) : Exit := ⟨0, stdout, "", log⟩

def indent (s : String) : String :=
  String.ofList (s.toList.flatMap fun c ↦ if c = '\n' then "\n    ".toList else [c])

def ofFailure (log : List LogRecord) : Failure → Exit
  | .plain message => ⟨1, "", "Error: " ++ message ++ "\n", log⟩
  | .within context cause =>
    ⟨1, "", "Error: " ++ context ++ "\n\nCaused by:\n    " ++ indent cause ++ "\n", log⟩
  | .crash _ => ⟨101, "", "", log⟩

end Exit

def readMaskDigits (value : Nat) : List Char → Except String Nat
  | [] => .ok value
  | c :: cs =>
    match Json.Lexer.hexDigit c with
    | none => .error "invalid digit found in string"
    | some d =>
      if UInt16.size ≤ 16 * value + d then .error "number too large to fit in target type"
      else readMaskDigits (16 * value + d) cs

def readMask (s : String) : Except String Nat :=
  match s.toList with
  | [] => .error "cannot parse integer from empty string"
  | ['+'] => .error "invalid digit found in string"
  | '+' :: cs => readMaskDigits 0 cs
  | cs => readMaskDigits 0 cs

def encodeText (dataRate txPower : UInt8) (mask : String) (maskControl transmissions : UInt8) :
    Except Failure String :=
  match readMask mask with
  | .error cause => .error (.within ("invalid channel mask " ++ mask) cause)
  | .ok raw =>
    match LinkRequest.make dataRate txPower (.ofRaw raw) maskControl transmissions with
    | .error e => .error (.plain e.message)
    | .ok r => .ok (Hex.upper r.toCommand.toBytes ++ "\n")

def decodeText (payload : String) : Except Failure String :=
  match Hex.decode (Text.trim payload).toUTF8.toList with
  | .error fault => .error (.within "payload is not valid hex" fault.message)
  | .ok bytes =>
    match LinkRequest.ofBytes bytes with
    | .error e => .error (.plain e.message)
    | .ok r => .ok ("DataRate:   " ++ toString r.dataRate ++ "\nTXPower:    " ++
        toString r.txPower ++ "\nChMask:     " ++ r.mask.text ++ " (" ++ toString r.mask.count ++
        " channels)\nChMaskCntl: " ++ toString r.maskControl ++ "\nNbTrans:    " ++
        toString r.transmissions ++ "\n")

def lossText (counters : List UInt32) : String :=
  toString (Window.lossPercentage (counters.map fun c ↦ ⟨c, .zero false, 1⟩)) ++ "%\n"

def emissionText (c : Mac.Command) (r : LinkRequest) (d : Device) : String :=
  "LinkADRReq " ++ Hex.upper c.toBytes ++ "\n  DR" ++ toString r.dataRate ++ " (" ++
    d.adr.dataRate.getD "?" ++ "), TXPower " ++ toString r.txPower ++ " (" ++
    toString (d.adr.txPower.getD 0) ++ " dBm), NbTrans " ++ toString r.transmissions ++
    ", ChMask " ++ r.mask.text ++ "\n"

def simulateText (s : Simulation) (config : Config) :
    List LogRecord × Except Failure String :=
  match s.run config with
  | (log, .error stop) => (log, .error (.ofStop stop))
  | (log, .ok (none, _)) => (log, .ok "No LinkADRReq needed\n")
  | (log, .ok (some c, d)) =>
    match LinkRequest.ofCommand c with
    | .error e => (log, .error (.plain e.message))
    | .ok r => (log ++ [.info ("emitted " ++ c.text)], .ok (emissionText c r d))

def Command.text (config : Config) : Command → List LogRecord × Except Failure String
  | .encode dataRate txPower mask maskControl transmissions =>
    ([], encodeText dataRate txPower mask maskControl transmissions)
  | .decode payload => ([], decodeText payload)
  | .loss counters => ([], .ok (lossText counters))
  | .simulate s => simulateText s config

def loadConfig (files : String → Except FileFault ByteArray) :
    Option String → Except Failure Config
  | none => .ok {}
  | some path =>
    (Config.loadFile (files path)).mapError fun fault ↦
      .within ("loading " ++ path) fault.toError.message

def Invocation.run (files : String → Except FileFault ByteArray) (i : Invocation) : Exit :=
  match loadConfig files i.config with
  | .error failure => .ofFailure [] failure
  | .ok config =>
    match i.command.text config with
    | (log, .error failure) => .ofFailure log failure
    | (log, .ok stdout) => .success stdout log

def run (files : String → Except FileFault ByteArray) (args : List String) : Exit :=
  match Request.read args with
  | .run i => i.run files
  | .help topic => .success (usage topic) []
  | .misuse => ⟨2, "", usage none, []⟩

end AdaptiveRate.CommandLine
