import AdaptiveRate.Json.Record

namespace AdaptiveRate

open AdaptiveRate.Number
open AdaptiveRate.Json (Codec Fields encode decode record)

structure Frame where
  counter : UInt32
  snr : Single
  gateways : UInt32
  deriving DecidableEq

structure DeviceKey where
  appId : String
  devId : String
  deriving DecidableEq

def DeviceKey.text (k : DeviceKey) : String := k.appId ++ "/" ++ k.devId

instance : ToString DeviceKey := ⟨DeviceKey.text⟩

instance : Codec Frame where
  encode f := record
    [("f_cnt", encode f.counter), ("snr", encode f.snr), ("gateway_count", encode f.gateways)]
  decode j := do
    let f ← Fields.read ["f_cnt", "snr", "gateway_count"] j
    return ⟨← f.require "f_cnt", ← f.require "snr", ← f.require "gateway_count"⟩

instance : Codec DeviceKey where
  encode k := record [("app_id", encode k.appId), ("dev_id", encode k.devId)]
  decode j := do
    let f ← Fields.read ["app_id", "dev_id"] j
    return ⟨← f.require "app_id", ← f.require "dev_id"⟩

end AdaptiveRate
