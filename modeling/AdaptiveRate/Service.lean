import AdaptiveRate.Engine.Downlink
import AdaptiveRate.Engine.Uplink
import AdaptiveRate.LockTable

namespace AdaptiveRate

open AdaptiveRate.History

structure Service where
  engine : Engine
  locks : LockTable Unit DeviceKey

namespace Service

def start (engine : Engine) : Service := ⟨engine, .empty⟩

def exclusively {μ : Type} (s : Service) (key : DeviceKey) (call : Engine → Reply μ) :
    Service × Reply μ :=
  let locks := s.locks.acquire () key
  let reply := call s.engine
  (⟨{ s.engine with store := reply.store }, locks.drop ()⟩, reply)

def uplink (s : Service) (medium : Medium) (m : Uplink) (d : Device) : Service × Reply Uplink :=
  s.exclusively d.key fun e ↦ e.uplink medium m d

def downlink (s : Service) (medium : Medium) (m : Downlink) (d : Device) :
    Service × Reply Downlink :=
  s.exclusively d.key fun e ↦ e.downlink medium m d

/-- Stores frames one by one with no deadline, up to the first that is refused. -/
def pushAll (s : Service) (medium : Medium) (key : DeviceKey) :
    List Frame → Except Stop Unit × Service
  | [] => (.ok (), s)
  | frame :: rest =>
    match medium.push.refusal? with
    | some err => (.error (.error (.store err)), s)
    | none =>
      match s.engine.store.push key frame with
      | (.ok (), store) => pushAll ⟨{ s.engine with store }, s.locks⟩ medium key rest
      | (result, store) => (result, ⟨{ s.engine with store }, s.locks⟩)

def clear (s : Service) (medium : Medium) (key : DeviceKey) : Except StoreError Unit × Service :=
  match medium.clear.refusal? with
  | some err => (.error err, s)
  | none =>
    let (result, store) := s.engine.store.clear key
    (result, ⟨{ s.engine with store }, s.locks⟩)

end Service

end AdaptiveRate
