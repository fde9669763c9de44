import AdaptiveRate.Error
import AdaptiveRate.Mac.ChannelMask
import AdaptiveRate.Number.Shortest

namespace AdaptiveRate

open AdaptiveRate.Number

inductive Band
  | eu863
  | us902
  | cn779
  | eu433
  | au915
  | cn470
  | as923
  | kr920
  | in865
  deriving DecidableEq

namespace Band

def all : List Band :=
  [.eu863, .us902, .cn779, .eu433, .au915, .cn470, .as923, .kr920, .in865]

def name : Band → String
  | .eu863 => "EU_863_870"
  | .us902 => "US_902_928"
  | .cn779 => "CN_779_787"
  | .eu433 => "EU_433"
  | .au915 => "AU_915_928"
  | .cn470 => "CN_470_510"
  | .as923 => "AS_923"
  | .kr920 => "KR_920_923"
  | .in865 => "IN_865_867"

instance : ToString Band := ⟨name⟩

def ofName (s : String) : Except Error Band :=
  match all.find? (·.name == s) with
  | some b => .ok b
  | none => .error (.unknownBand s)

end Band

structure DataRate where
  index : UInt8
  name : String
  spreadingFactor : Nat
  /-- Kilohertz. -/
  bandwidth : Nat
  requiredSnr : Single
  deriving DecidableEq

structure ChannelPlan where
  band : Band
  dataRates : List DataRate
  maxAdrDataRate : UInt8
  /-- In dBm, strongest first. -/
  txPowers : List Int8
  defaultTxPower : UInt8
  channelCount : Nat
  defaultChannels : List UInt8
  /-- Decibels given up with each step of data rate or power. -/
  step : Single
  /-- One LinkADRReq is enough to set every channel. -/
  linkAdrSupported : Bool

namespace ChannelPlan

variable (p : ChannelPlan)

def dataRate (name : String) : Except Error DataRate :=
  match p.dataRates.find? (·.name == name) with
  | some rate => .ok rate
  | none => .error (.invalidDataRate p.band.name name)

def dataRateIndex (name : String) : Except Error UInt8 := (p.dataRate name).map (·.index)

def dataRateByIndex (index : UInt8) : Option DataRate := p.dataRates.find? (·.index == index)

def requiredSnr (name : String) : Except Error Single := (p.dataRate name).map (·.requiredSnr)

def txPowerDbm (index : UInt8) : Option Int8 := p.txPowers[index.toNat]?

def txPowerIndex (dbm : Int8) : Except Error UInt8 :=
  match p.txPowers.findIdx? (· == dbm) with
  | some i => .ok (.ofNat i)
  | none => .error (.invalidTxPower p.band.name dbm)

def minTxPowerIndex : UInt8 := .ofNat (p.txPowers.length - 1)

def defaultMask : ChannelMask := .ofChannels p.defaultChannels

end ChannelPlan

end AdaptiveRate
