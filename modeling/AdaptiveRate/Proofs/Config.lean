import AdaptiveRate.Config

namespace AdaptiveRate.Config

structure Valid (c : Config) : Prop where
  margin_finite : c.defaultMargin.isFinite = true
  margin_nonneg : c.defaultMargin.lt (.zero false) = false
  capacity_ne : c.historyCapacity ≠ 0
  minHistory_ne : c.minHistory ≠ 0
  minHistory_le : c.minHistory ≤ c.historyCapacity
  reduce_le : c.thresholds.reduceBelow ≤ c.thresholds.keepBelow
  keep_le : c.thresholds.keepBelow ≤ c.thresholds.increaseBelow
  increase_le : c.thresholds.increaseBelow ≤ 100
  transmissions_pos : 1 ≤ c.maxTransmissions
  transmissions_le : c.maxTransmissions ≤ 15
  timeout_ne : c.storeTimeoutMs ≠ 0

variable {c : Config}

theorem Valid.minHistory_pos (h : c.Valid) : 0 < c.minHistory.toNat :=
  Nat.pos_of_ne_zero fun h0 ↦ h.minHistory_ne (UInt64.toNat.inj h0)

theorem Valid.toNat_minHistory_le (h : c.Valid) : c.minHistory.toNat ≤ c.historyCapacity.toNat :=
  UInt64.le_iff_toNat_le.1 h.minHistory_le

theorem refuse_eq_ok_iff {p : Prop} [Decidable p] {defect : Defect} {rest : Except Defect Unit} :
    (if p then .error defect else rest) = .ok () ↔ ¬ p ∧ rest = .ok () := by
  by_cases h : p <;> simp [h]

theorem validate_eq_ok_iff : c.validate = .ok () ↔ c.Valid := by
  simp only [validate, refuse_eq_ok_iff, Bool.or_eq_true, Bool.not_eq_true', Bool.and_eq_false_iff,
    decide_eq_true_eq, decide_eq_false_iff_not, not_or, Classical.not_not, Bool.not_eq_false,
    Bool.not_eq_true, UInt64.not_lt, UInt8.not_lt, and_true]
  constructor
  · rintro ⟨⟨hfinite, hneg⟩, hcap, ⟨hmin, hle⟩, ⟨⟨hreduce, hkeep⟩, hinc⟩, ⟨hpos, hmax⟩, htimeout⟩
    exact ⟨hfinite, hneg, hcap, hmin, hle, hreduce, hkeep, hinc, hpos, hmax, htimeout⟩
  · intro h
    exact ⟨⟨h.margin_finite, h.margin_nonneg⟩, h.capacity_ne, ⟨h.minHistory_ne, h.minHistory_le⟩,
      ⟨⟨h.reduce_le, h.keep_le⟩, h.increase_le⟩, ⟨h.transmissions_pos, h.transmissions_le⟩,
      h.timeout_ne⟩

end AdaptiveRate.Config
