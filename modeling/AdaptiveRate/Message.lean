import AdaptiveRate.Frame
import AdaptiveRate.Mac.Command
import AdaptiveRate.Window

namespace AdaptiveRate

open AdaptiveRate.Number
open AdaptiveRate.Json (Codec Fields encode decode record)

structure Uplink.Mac where
  counter : UInt32
  adr : Bool := false
  adrAckReq : Bool := false
  deriving DecidableEq

structure Uplink.Metadata where
  dataRate : String
  frequencyPlan : Option String := none
  deriving DecidableEq

structure Reception where
  gatewayId : String
  snr : Single
  rssi : Single
  deriving DecidableEq

structure Downlink.Mac where
  ack : Bool := false
  options : List Mac.Command := []
  deriving DecidableEq

structure Downlink where
  mac : Option Downlink.Mac := some {}
  deriving DecidableEq

structure Uplink where
  mac : Option Uplink.Mac := none
  metadata : Option Uplink.Metadata := none
  receptions : List Reception := []
  response : Option Downlink := none
  deriving DecidableEq

def Downlink.options (m : Downlink) : List Mac.Command :=
  match m.mac with
  | some mac => mac.options
  | none => []

namespace Uplink

def make (counter : UInt32) (dataRate : String) : Uplink where
  mac := some { counter }
  metadata := some { dataRate }
  response := some {}

def better (best : Option Single) (snr : Single) : Option Single :=
  some (best.elim snr (·.max snr))

/-- Zero when no gateway reported a ratio. -/
def bestSnr (m : Uplink) : Single :=
  match (m.receptions.map (·.snr)).foldl better none with
  | some best => best
  | none => .zero false

def gatewayCount (m : Uplink) : UInt32 := .ofNat m.receptions.length

def hasResponseMac (m : Uplink) : Bool := (m.response.bind (·.mac)).isSome

def frame (m : Uplink) (mac : Uplink.Mac) : Frame := ⟨mac.counter, m.bestSnr, m.gatewayCount⟩

def acknowledge (m : Uplink) : Uplink :=
  { m with response := m.response.map fun r ↦ ⟨r.mac.map fun mac ↦ { mac with ack := true }⟩ }

end Uplink

instance : Codec Uplink.Mac where
  encode m := record
    [("f_cnt", encode m.counter), ("adr", encode m.adr), ("adr_ack_req", encode m.adrAckReq)]
  decode j := do
    let f ← Fields.read ["f_cnt", "adr", "adr_ack_req"] j
    return ⟨← f.require "f_cnt", ← f.require "adr", ← f.require "adr_ack_req"⟩

instance : Codec Uplink.Metadata where
  encode m := record
    [("data_rate", encode m.dataRate), ("frequency_plan", encode m.frequencyPlan)]
  decode j := do
    let f ← Fields.read ["data_rate", "frequency_plan"] j
    return ⟨← f.require "data_rate", ← f.optional "frequency_plan"⟩

instance : Codec Reception where
  encode r := record
    [("gateway_id", encode r.gatewayId), ("snr", encode r.snr), ("rssi", encode r.rssi)]
  decode j := do
    let f ← Fields.read ["gateway_id", "snr", "rssi"] j
    return ⟨← f.require "gateway_id", ← f.require "snr", ← f.require "rssi"⟩

end AdaptiveRate
