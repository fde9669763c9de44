import AdaptiveRate.Error
import AdaptiveRate.History.Ring
import AdaptiveRate.KeyMap

namespace AdaptiveRate.History

structure Stats where
  devices : Nat
  frames : Nat
  evictions : Nat
  deriving DecidableEq

structure Store where
  capacity : Nat
  /-- Lost for good when a ring could not be reserved, or could not count its evictions. -/
  rings : Option (KeyMap DeviceKey Ring)

namespace Store

def empty (capacity : Nat) : Store := ⟨capacity, some .empty⟩

def lost : StoreError := .unavailable "history lock poisoned"

def push (s : Store) (key : DeviceKey) (frame : Frame) : Except Stop Unit × Store :=
  match s with
  | ⟨capacity, none⟩ => (.error (.error (.store lost)), ⟨capacity, none⟩)
  | ⟨capacity, some rings⟩ =>
    match (rings.get? key).map Ring.overflows with
    | some true => (.error (.crash .overflow), ⟨capacity, none⟩)
    | some false => (.ok (), ⟨capacity, some (rings.modify key (·.push frame))⟩)
    | none =>
      match Ring.make? capacity with
      | some fresh => (.ok (), ⟨capacity, some (rings.insert key (fresh.push frame))⟩)
      | none => (.error (.crash .oversized), ⟨capacity, none⟩)

def get (s : Store) (key : DeviceKey) : Except StoreError (List Frame) :=
  match s.rings with
  | none => .error lost
  | some rings => .ok (((rings.get? key).map Ring.toList).getD [])

def clear (s : Store) (key : DeviceKey) : Except StoreError Unit × Store :=
  match s.rings with
  | none => (.error lost, s)
  | some rings => (.ok (), { s with rings := some (rings.erase key) })

def stats (s : Store) : Except StoreError Stats :=
  match s.rings with
  | none => .error lost
  | some rings => .ok
    { devices := rings.values.countP (!·.isEmpty)
      frames := rings.values.foldl (fun n r ↦ n + r.length) 0
      evictions := rings.values.foldl (fun n r ↦ n + r.evictions) 0 }

end Store

end AdaptiveRate.History
