import AdaptiveRate.Band.Plans
import AdaptiveRate.Decision
import AdaptiveRate.Device
import AdaptiveRate.History.Medium
import AdaptiveRate.Log
import AdaptiveRate.Message

namespace AdaptiveRate

open AdaptiveRate.History

structure Engine where
  config : Config
  store : Store
  /-- Frames per device that the store claims to keep. -/
  reported : Option Nat

namespace Engine

def ofCapacity (capacity : Nat) (config : Config) : Engine :=
  ⟨config, .empty capacity, some capacity⟩

def inMemory (config : Config) : Engine := ofCapacity config.historyCapacity.toNat config

/-- A store that keeps too few frames never allows a decision. -/
def checkCapacity (e : Engine) : Except Error Unit :=
  match e.reported with
  | some kept =>
    if kept < e.config.minHistory.toNat then
      .error (.config ("history store keeps " ++ toString kept ++
        " frames per device, decisions need " ++ toString e.config.minHistory))
    else .ok ()
  | none => .ok ()

def startLog (e : Engine) : List LogRecord :=
  match e.checkCapacity with
  | .ok () => []
  | .error err => [.warn ("ADR: " ++ err.message)]

def deadline (e : Engine) : Nat := e.config.storeTimeoutMs.toNat

def frames (e : Engine) (medium : Medium) (key : DeviceKey) : Except StoreError (List Frame) := do
  medium.get.within e.deadline
  e.store.get key

def push (e : Engine) (medium : Medium) (key : DeviceKey) (frame : Frame) :
    Except Stop Unit × Store :=
  match medium.push.within e.deadline with
  | .ok () => e.store.push key frame
  | .error err => (.error (.error (.store err)), e.store)

def clear (e : Engine) (medium : Medium) (key : DeviceKey) : Except Stop Unit × Store :=
  match medium.clear.within e.deadline with
  | .ok () =>
    match e.store.clear key with
    | (.ok (), store) => (.ok (), store)
    | (.error err, store) => (.error (.error (.store err)), store)
  | .error err => (.error (.error (.store err)), e.store)

end Engine

structure Reply (μ : Type) where
  result : Except Stop Unit
  message : μ
  device : Device
  store : Store
  log : List LogRecord

def Engine.unchanged {μ : Type} (e : Engine) (m : μ) (d : Device) (result : Except Stop Unit)
    (log : List LogRecord) : Reply μ :=
  ⟨result, m, d, e.store, log⟩

end AdaptiveRate
