import AdaptiveRate.Frame

namespace AdaptiveRate

open AdaptiveRate.Number
open AdaptiveRate.Json (Codec Fields encode decode record)

structure AdrState where
  dataRate : Option String := none
  band : Option String := none
  /-- In dBm; the default of the band until a request has set it. -/
  txPower : Option Int8 := none
  transmissions : UInt8 := 1
  requestOwed : Bool := false
  margin : Option Single := none
  deriving DecidableEq

structure Device where
  appId : String
  devId : String
  adr : AdrState := {}
  deriving DecidableEq

/-- Devices with one key share their history. -/
def Device.key (d : Device) : DeviceKey := ⟨d.appId, d.devId⟩

instance : Codec AdrState where
  encode s := record
    [("data_rate", encode s.dataRate), ("band", encode s.band), ("tx_power", encode s.txPower),
      ("nb_trans", encode s.transmissions), ("send_req", encode s.requestOwed),
      ("margin", encode s.margin)]
  decode j := do
    let f ← Fields.read ["data_rate", "band", "tx_power", "nb_trans", "send_req", "margin"] j
    let s : AdrState := {}
    return ⟨← f.getD "data_rate" s.dataRate, ← f.getD "band" s.band,
      ← f.getD "tx_power" s.txPower, ← f.getD "nb_trans" s.transmissions,
      ← f.getD "send_req" s.requestOwed, ← f.getD "margin" s.margin⟩

instance : Codec Device where
  encode d := record
    [("app_id", encode d.appId), ("dev_id", encode d.devId), ("adr", encode d.adr)]
  decode j := do
    let f ← Fields.read ["app_id", "dev_id", "adr"] j
    return ⟨← f.require "app_id", ← f.require "dev_id", ← f.getD "adr" {}⟩

end AdaptiveRate
