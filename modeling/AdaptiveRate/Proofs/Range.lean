import AdaptiveRate.Engine
import AdaptiveRate.Proofs.Config
import AdaptiveRate.Proofs.Decision
import AdaptiveRate.Proofs.History.Store

namespace UInt32

variable (a b : UInt32)

theorem min_le_left : min a b ≤ a := by
  change (if a ≤ b then a else b) ≤ a
  split
  · exact UInt32.le_refl a
  · next hgt => exact UInt32.le_of_lt (UInt32.not_le.1 hgt)

theorem le_max_left : a ≤ max a b := by
  change a ≤ if a ≤ b then b else a
  split
  · assumption
  · exact UInt32.le_refl a

end UInt32

namespace AdaptiveRate

open AdaptiveRate.History

namespace Window

theorem span_le {frames : List Frame} {lo hi : UInt32} (h : span frames = some (lo, hi)) :
    lo ≤ hi := by
  suffices ∀ lo hi, span frames = some (lo, hi) → lo ≤ hi from this lo hi h
  apply List.foldlRecOn (motive := fun acc ↦ ∀ lo hi : UInt32, acc = some (lo, hi) → lo ≤ hi)
  · intro lo hi hnone
    cases hnone
  · intro acc hacc n _ lo hi heq
    cases acc with
    | none =>
      cases heq
      exact UInt32.le_refl n
    | some bounds =>
      obtain ⟨lo', hi'⟩ := bounds
      have hle := hacc lo' hi' rfl
      cases heq
      exact UInt32.le_trans (UInt32.min_le_left lo' n)
        (UInt32.le_trans hle (UInt32.le_max_left hi' n))

end Window

namespace ChannelPlan

variable (p : ChannelPlan)

theorem toNat_lowerPower (n : Nat) (power : UInt8) : (p.lowerPower n power).toNat =
    power.toNat + min n (p.minTxPowerIndex.toNat - power.toNat) := by
  induction n generalizing power with
  | zero => simp [lowerPower]
  | succ n ih =>
    rw [lowerPower]
    split
    · next hlt =>
      have hlt : power.toNat < p.minTxPowerIndex.toNat := UInt8.lt_iff_toNat_lt.1 hlt
      have hbound := p.minTxPowerIndex.toNat_lt
      have hsucc : (power + 1).toNat = power.toNat + 1 := by
        rw [UInt8.toNat_add]
        exact Nat.mod_eq_of_lt (by simpa using by omega)
      rw [ih, hsucc]
      omega
    · next hge =>
      have hge : p.minTxPowerIndex.toNat ≤ power.toNat :=
        UInt8.le_iff_toNat_le.1 (UInt8.not_lt.1 hge)
      omega

end ChannelPlan

namespace History.Ring

/-- Looking at the frames and adding another one stays within the slots and within 64 bits. -/
structure InRange (r : Ring) : Prop where
  split_le : r.head ≤ r.length
  slot_lt : r.capacity ≤ r.length → r.head < r.length
  next_lt : r.head + 1 < UInt64.size
  counts : r.overflows = false

variable {r : Ring} {past : List Frame}

theorem inRange (hcap : r.capacity * frameBytes ≤ maxBytes)
    (hcount : r.evictions + r.length < UInt64.size) : r.InRange where
  split_le := by
    by_cases hroom : r.slots.size < r.capacity
    · rw [r.head_eq hroom]
      exact Nat.zero_le _
    · exact Nat.le_trans (Nat.le_of_lt r.head_lt) (Nat.not_lt.1 hroom)
  slot_lt := fun hfull ↦ Nat.lt_of_lt_of_le r.head_lt hfull
  next_lt := by
    have hhead := r.head_lt
    simp only [frameBytes, maxBytes, UInt64.size] at hcap ⊢
    omega
  counts := r.not_overflows hcount

theorem Holds.inRange (h : r.Holds past) (hcap : r.capacity * frameBytes ≤ maxBytes)
    (hlen : past.length < UInt64.size) : r.InRange :=
  Ring.inRange hcap (h.count_eq ▸ hlen)

end History.Ring

namespace Engine

/-- Everything that any call computes with whole numbers or places in a ring is in range. -/
structure InRange (e : Engine) : Prop where
  rings : ∀ rings key r, e.store.rings = some rings → rings.get? key = some r → r.InRange
  counters : ∀ key frames lo hi, e.store.get key = .ok frames →
    Window.span frames = some (lo, hi) → lo ≤ hi
  transmissions : ∀ current loss, ∃ n,
    e.config.thresholds.transmissions e.config.maxTransmissions current loss = .ok n
  powers : ∀ (b : Band) (n : Nat) (power : UInt8), (b.plan.lowerPower n power).toNat =
    power.toNat + min n (b.plan.minTxPowerIndex.toNat - power.toNat)

variable {e : Engine}

theorem inRange_of_rings (hvalid : e.config.Valid)
    (hrings : ∀ rings key r, e.store.rings = some rings → rings.get? key = some r → r.InRange) :
    e.InRange where
  rings := hrings
  counters := fun _ _ _ _ _ hspan ↦ Window.span_le hspan
  transmissions := fun _ _ ↦ LossThresholds.exists_transmissions hvalid.transmissions_pos
    (UInt8.lt_of_le_of_lt hvalid.transmissions_le (by decide))
  powers := fun b n power ↦ b.plan.toNat_lowerPower n power

end Engine

end AdaptiveRate
