import AdaptiveRate.History.Store
import AdaptiveRate.Proofs.History.Ring
import AdaptiveRate.Proofs.KeyMap
import Mathlib.Algebra.Group.Nat.Defs
import Mathlib.Logic.Function.Basic

namespace AdaptiveRate.History

open Function

def Ring.Slot (capacity : Nat) : Option Ring → List Frame → Prop
  | none, past => past = []
  | some r, past => r.capacity = max capacity 1 ∧ r.Holds past

namespace Store

def Affordable (capacity : Nat) : Prop := max capacity 1 * Ring.frameBytes ≤ Ring.maxBytes

theorem affordable_iff {capacity : Nat} : Affordable capacity ↔ capacity * 12 ≤ 2 ^ 63 - 1 := by
  simp only [Affordable, Ring.frameBytes, Ring.maxBytes, UInt64.size]
  omega

structure Keeps (s : Store) (past : DeviceKey → List Frame) : Prop where
  slots : ∃ rings, s.rings = some rings ∧ ∀ key, Ring.Slot s.capacity (rings.get? key) (past key)

variable {s : Store} {past : DeviceKey → List Frame}

theorem keeps_empty (capacity : Nat) : (empty capacity).Keeps fun _ ↦ [] :=
  ⟨.empty, rfl, fun _ ↦ rfl⟩

theorem Keeps.get (h : s.Keeps past) (key : DeviceKey) :
    s.get key = .ok ((past key).rtake (max s.capacity 1)) := by
  obtain ⟨rings, hrings, hslot⟩ := h.slots
  have hk := hslot key
  simp only [Store.get, hrings]
  cases hr : rings.get? key with
  | none =>
    rw [hr] at hk
    have hpast : past key = [] := hk
    simp [hpast]
  | some r =>
    rw [hr] at hk
    obtain ⟨hcap, hholds⟩ := hk
    simp [hholds.toList_eq, hcap]

theorem Keeps.push (h : s.Keeps past) (hcap : Affordable s.capacity) (key : DeviceKey)
    (frame : Frame) (hlen : (past key).length < UInt64.size) :
    ∃ s', s.push key frame = (.ok (), s') ∧ s'.capacity = s.capacity ∧
      s'.Keeps (update past key (past key ++ [frame])) := by
  obtain ⟨capacity, _⟩ := s
  obtain ⟨rings, rfl, hslot⟩ := h.slots
  have hk := hslot key
  cases hr : rings.get? key with
  | none =>
    rw [hr] at hk
    have hpast : past key = [] := hk
    obtain ⟨fresh, hfresh⟩ : ∃ fresh, Ring.make? capacity = some fresh :=
      ⟨_, if_neg (Nat.not_lt.2 hcap)⟩
    obtain ⟨hc, hholds⟩ := Ring.holds_make hfresh
    refine ⟨⟨capacity, some (rings.insert key (fresh.push frame))⟩, ?_, rfl, ⟨_, rfl, fun k ↦ ?_⟩⟩
    · simp [Store.push, hr, hfresh]
    · by_cases hkey : k = key
      · subst hkey
        simpa [Ring.Slot, hc, hpast] using hholds.push frame
      · simpa [hkey] using hslot k
  | some r =>
    rw [hr] at hk
    obtain ⟨hc, hholds⟩ := hk
    refine ⟨⟨capacity, some (rings.modify key (·.push frame))⟩, ?_, rfl, ⟨_, rfl, fun k ↦ ?_⟩⟩
    · simp [Store.push, hr, hholds.not_overflows hlen]
    · by_cases hkey : k = key
      · subst hkey
        simpa [Ring.Slot, hr, hc] using hholds.push frame
      · simpa [hkey] using hslot k

theorem Keeps.clear (h : s.Keeps past) (key : DeviceKey) :
    ∃ s', s.clear key = (.ok (), s') ∧ s'.capacity = s.capacity ∧
      s'.Keeps (update past key []) := by
  obtain ⟨capacity, _⟩ := s
  obtain ⟨rings, rfl, hslot⟩ := h.slots
  refine ⟨⟨capacity, some (rings.erase key)⟩, rfl, rfl, ⟨_, rfl, fun k ↦ ?_⟩⟩
  by_cases hkey : k = key
  · simp [hkey, Ring.Slot]
  · simpa [hkey] using hslot k

end Store

end AdaptiveRate.History
