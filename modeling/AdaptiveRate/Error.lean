import AdaptiveRate.Duration
import AdaptiveRate.Text.Hex

namespace AdaptiveRate

inductive StoreError
  | unavailable (reason : String)
  | timedOut (deadline : Duration)
  deriving DecidableEq

inductive Error
  | malformedUplink (reason : String)
  | malformedDownlink (reason : String)
  | unknownBand (name : String)
  | invalidDataRate (band dataRate : String)
  | invalidTxPower (band : String) (dbm : Int8)
  | payloadLength (expected actual : Nat)
  | unexpectedCommand (cid : UInt8)
  | outOfRange (field : String) (value max : UInt8)
  | config (reason : String)
  | store (cause : StoreError)
  deriving DecidableEq

def StoreError.message : StoreError → String
  | .unavailable reason => "History store unavailable: " ++ reason
  | .timedOut deadline => "History store timed out after " ++ deadline.text

namespace Error

def message : Error → String
  | .malformedUplink reason => "Malformed uplink: " ++ reason
  | .malformedDownlink reason => "Malformed downlink: " ++ reason
  | .unknownBand name => "Unknown band: " ++ name
  | .invalidDataRate band rate => "Invalid data rate " ++ rate ++ " for band " ++ band
  | .invalidTxPower band dbm => "Invalid TX power " ++ toString dbm ++ " dBm for band " ++ band
  | .payloadLength expected actual =>
    "Invalid MAC payload length: expected " ++ toString expected ++ ", got " ++ toString actual
  | .unexpectedCommand cid => "Unexpected MAC command: 0x" ++ Hex.upper [cid]
  | .outOfRange field value max =>
    field ++ " out of range: " ++ toString value ++ " (max " ++ toString max ++ ")"
  | .config reason => "Configuration error: " ++ reason
  | .store cause => cause.message

def isTransient : Error → Bool
  | .store _ => true
  | _ => false

instance : ToString Error := ⟨message⟩

end Error

/-- Conditions under which a computation has no answer at all. -/
inductive Crash
  | emptyRange
  | overflow
  | oversized
  deriving DecidableEq

inductive Stop
  | error (e : Error)
  | crash (c : Crash)
  deriving DecidableEq

instance : Coe Error Stop := ⟨.error⟩

end AdaptiveRate
