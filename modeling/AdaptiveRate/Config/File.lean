import AdaptiveRate.Config

namespace AdaptiveRate

open AdaptiveRate.Json (Codec Fields encode decode record)

instance : Codec LossThresholds where
  encode t := record
    [("reduce_below", encode t.reduceBelow), ("keep_below", encode t.keepBelow),
      ("increase_below", encode t.increaseBelow)]
  decode j := do
    let f ← Fields.read ["reduce_below", "keep_below", "increase_below"] j
    let t : LossThresholds := {}
    return ⟨← f.getD "reduce_below" t.reduceBelow, ← f.getD "keep_below" t.keepBelow,
      ← f.getD "increase_below" t.increaseBelow⟩

instance : Codec Config where
  encode c := record
    [("default_margin_db", encode c.defaultMargin), ("min_history", encode c.minHistory),
      ("history_capacity", encode c.historyCapacity), ("loss_thresholds", encode c.thresholds),
      ("max_nb_trans", encode c.maxTransmissions), ("store_timeout_ms", encode c.storeTimeoutMs)]
  decode j := do
    let f ← Fields.read ["default_margin_db", "min_history", "history_capacity",
      "loss_thresholds", "max_nb_trans", "store_timeout_ms"] j
    let c : Config := {}
    return ⟨← f.getD "default_margin_db" c.defaultMargin, ← f.getD "min_history" c.minHistory,
      ← f.getD "history_capacity" c.historyCapacity, ← f.getD "loss_thresholds" c.thresholds,
      ← f.getD "max_nb_trans" c.maxTransmissions, ← f.getD "store_timeout_ms" c.storeTimeoutMs⟩

inductive FileFault
  | missing
  | directory
  | other (reason : String)
  deriving DecidableEq

def FileFault.message : FileFault → String
  | .missing => "No such file or directory (os error 2)"
  | .directory => "Is a directory (os error 21)"
  | .other reason => reason

namespace Config

inductive LoadFault
  | file (fault : FileFault)
  | encoding
  | json
  | defect (d : Defect)
  deriving DecidableEq

def LoadFault.message : LoadFault → String
  | .file fault => fault.message
  | .encoding => "stream did not contain valid UTF-8"
  | .json => "not a JSON form of the configuration"
  | .defect d => d.message

def LoadFault.toError (fault : LoadFault) : Error := .config fault.message

def save (c : Config) : String := (encode c).pretty

def load (content : ByteArray) : Except LoadFault Config :=
  match String.fromUTF8? content with
  | none => .error .encoding
  | some text =>
    match (Json.parse text).bind Codec.decode with
    | none => .error .json
    | some (c : Config) =>
      match c.validate with
      | .ok () => .ok c
      | .error d => .error (.defect d)

def loadFile : Except FileFault ByteArray → Except LoadFault Config
  | .ok content => load content
  | .error fault => .error (.file fault)

end Config

end AdaptiveRate
