import AdaptiveRate.Decision

namespace AdaptiveRate

namespace LossThresholds

variable {t : LossThresholds} {top current loss n : UInt8}

theorem toNat_clamped (current : UInt8) (htop : 1 ≤ top) :
    (if current < 1 then 1 else if top < current then top else current : UInt8).toNat =
      max 1 (min current.toNat top.toNat) := by
  simp only [UInt8.le_iff_toNat_le, UInt8.lt_iff_toNat_lt, UInt8.reduceToNat] at *
  have hone : (1 : UInt8).toNat = 1 := rfl
  split
  · omega
  · split <;> omega

theorem toNat_fewer (n : UInt8) :
    (if n ≤ 1 then 1 else n - 1 : UInt8).toNat = max 1 (n.toNat - 1) := by
  have hone : (1 : UInt8).toNat = 1 := rfl
  split
  · next hle =>
    have hle : n.toNat ≤ 1 := UInt8.le_iff_toNat_le.1 hle
    omega
  · next hgt =>
    have hgt : 1 < n.toNat := UInt8.lt_iff_toNat_lt.1 (UInt8.not_le.1 hgt)
    have hsub : (n - 1).toNat = n.toNat - 1 :=
      UInt8.toNat_sub_of_le n 1 (UInt8.le_iff_toNat_le.2 (Nat.le_of_lt hgt))
    omega

theorem toNat_more (top : UInt8) (hn : n ≠ 255) :
    (min (n + 1) top).toNat = min (n.toNat + 1) top.toNat := by
  have hlt : n.toNat + 1 < 256 := by
    have hne : n.toNat ≠ 255 := fun heq ↦ hn (UInt8.toNat_inj.1 heq)
    have hbound := n.toNat_lt
    omega
  have hsum : (n + 1).toNat = n.toNat + 1 := by
    rw [UInt8.toNat_add]
    exact Nat.mod_eq_of_lt hlt
  have hmin : min (n + 1) top = if n + 1 ≤ top then n + 1 else top := rfl
  rw [hmin]
  split
  · next hle =>
    rw [UInt8.le_iff_toNat_le, hsum] at hle
    omega
  · next hgt =>
    rw [UInt8.le_iff_toNat_le, hsum] at hgt
    omega

/-- The number of transmissions, with the number in use brought within the limits first. -/
theorem toNat_transmissions (h : t.transmissions top current loss = .ok n) : n.toNat =
    if loss < t.reduceBelow then max 1 (max 1 (min current.toNat top.toNat) - 1)
    else if loss < t.keepBelow then max 1 (min current.toNat top.toNat)
    else if loss < t.increaseBelow then min (max 1 (min current.toNat top.toNat) + 1) top.toNat
    else top.toNat := by
  unfold transmissions at h
  split at h
  · cases h
  · next htop =>
    have hclamped := toNat_clamped current (UInt8.not_lt.1 htop)
    dsimp only at h
    generalize (if current < 1 then 1 else if top < current then top else current) = m at h hclamped
    rw [← hclamped]
    split at h
    · next hreduce =>
      cases h
      rw [if_pos hreduce, toNat_fewer]
    · next hreduce =>
      rw [if_neg hreduce]
      split at h
      · next hkeep =>
        cases h
        rw [if_pos hkeep]
      · next hkeep =>
        rw [if_neg hkeep]
        split at h
        · next hincrease =>
          rw [if_pos hincrease]
          split at h
          · cases h
          · next hne =>
            cases h
            exact toNat_more top hne
        · next hincrease =>
          cases h
          rw [if_neg hincrease]

theorem transmissions_bounds (h : t.transmissions top current loss = .ok n) :
    1 ≤ n ∧ n ≤ top := by
  have htop : 1 ≤ top.toNat := by
    unfold transmissions at h
    split at h
    · cases h
    · next htop => exact UInt8.le_iff_toNat_le.1 (UInt8.not_lt.1 htop)
  have hnat := toNat_transmissions h
  have hone : (1 : UInt8).toNat = 1 := rfl
  rw [UInt8.le_iff_toNat_le, UInt8.le_iff_toNat_le]
  split at hnat
  · omega
  · split at hnat
    · omega
    · split at hnat <;> omega

theorem exists_transmissions (hpos : 1 ≤ top) (hlt : top < 255) :
    ∃ n, t.transmissions top current loss = .ok n := by
  have hclamped := toNat_clamped current hpos
  have htop : 1 ≤ top.toNat := UInt8.le_iff_toNat_le.1 hpos
  have hlt : top.toNat < 255 := UInt8.lt_iff_toNat_lt.1 hlt
  unfold transmissions
  rw [if_neg (UInt8.not_lt.2 hpos)]
  dsimp only
  generalize (if current < 1 then 1 else if top < current then top else current) = m
    at hclamped ⊢
  have hm : m ≠ 255 := by
    rintro rfl
    have hbyte : (255 : UInt8).toNat = 255 := rfl
    omega
  rw [if_neg hm]
  split
  · exact ⟨_, rfl⟩
  · split
    · exact ⟨_, rfl⟩
    · split <;> exact ⟨_, rfl⟩

end LossThresholds

variable {frames : List Frame} {p : ChannelPlan} {current : Settings} {margin : Number.Single}
  {config : Config}

structure Decides (frames : List Frame) (p : ChannelPlan) (current : Settings)
    (margin : Number.Single) (config : Config) (rate : DataRate) (decision : Decision) : Prop where
  listed : p.dataRateByIndex current.dataRate = some rate
  starts : decision.current = current
  linkMargin : decision.linkMargin = Window.maxSnr frames - rate.requiredSnr - margin
  steps : decision.steps = p.stepsIn decision.linkMargin
  dataRate : decision.target.dataRate = (p.raiseDataRate decision.steps current.dataRate).2
  txPower : decision.target.txPower =
    p.lowerPower (p.raiseDataRate decision.steps current.dataRate).1 current.txPower
  loss : decision.loss = Window.lossPercentage frames
  transmissions : config.thresholds.transmissions config.maxTransmissions current.transmissions
    decision.loss = .ok decision.target.transmissions

theorem decides_of_decide {decision : Decision}
    (h : decide frames p current margin config = .ok decision) :
    ∃ rate, Decides frames p current margin config rate decision := by
  unfold decide at h
  split at h
  · cases h
  · next rate hrate =>
    dsimp only at h
    generalize hmargin : Window.maxSnr frames - rate.requiredSnr - margin = linkMargin at h
    generalize hsteps : p.stepsIn linkMargin = steps at h
    split at h
    · cases h
    · next n hn =>
      cases h
      exact ⟨rate, hrate, rfl, hmargin.symm, hsteps.symm, rfl, rfl, rfl, hn⟩

theorem transmissions_of_decide {decision : Decision}
    (h : decide frames p current margin config = .ok decision) :
    1 ≤ decision.target.transmissions ∧
      decision.target.transmissions ≤ config.maxTransmissions := by
  obtain ⟨rate, hdecides⟩ := decides_of_decide h
  exact LossThresholds.transmissions_bounds hdecides.transmissions

theorem error_of_decide {err : Error}
    (h : decide frames p current margin config = .error (.error err)) :
    ∃ name, err = .invalidDataRate p.band.name name := by
  unfold decide at h
  split at h
  · cases h
    exact ⟨_, rfl⟩
  · dsimp only at h
    split at h <;> cases h

theorem decide_ne_crash (hpos : 1 ≤ config.maxTransmissions) (hlt : config.maxTransmissions < 255)
    (c : Crash) : decide frames p current margin config ≠ .error (.crash c) := by
  intro h
  unfold decide at h
  split at h
  · cases h
  · dsimp only at h
    split at h
    · next hcrash =>
      obtain ⟨n, hn⟩ := LossThresholds.exists_transmissions hpos hlt
      rw [hn] at hcrash
      cases hcrash
    · cases h

end AdaptiveRate
