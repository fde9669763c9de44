import AdaptiveRate.Proofs.Allocation

namespace AdaptiveRate

open AdaptiveRate.Number

namespace Window

theorem maxOf_mono {ratios ratios' : List Single} (h : List.Forall₂ (· ≤ ·) ratios ratios') :
    maxOf ratios ≤ maxOf ratios' := by
  cases h with
  | nil =>
    have hzero : (Binary.zero false : Single).isFinite = true := by decide +kernel
    exact Binary.le_refl_of_isFinite hzero
  | @cons x y xs ys hxy hrest =>
    simp only [maxOf]
    induction hrest generalizing x y with
    | nil => exact hxy
    | cons hnext _ ih => exact ih (Binary.max_le_max hxy hnext)

/-- A window heard at least as well, frame by frame. -/
def HeardBetter (frames frames' : List Frame) : Prop :=
  List.Forall₂ (fun f f' ↦ f.counter = f'.counter ∧ f.snr ≤ f'.snr) frames frames'

variable {frames frames' : List Frame}

theorem HeardBetter.maxSnr_le (h : HeardBetter frames frames') :
    maxSnr frames ≤ maxSnr frames' := by
  apply maxOf_mono
  rw [List.forall₂_map_left_iff, List.forall₂_map_right_iff]
  exact h.imp fun _ _ hframe ↦ hframe.2

theorem HeardBetter.lossPercentage_eq (h : HeardBetter frames frames') :
    lossPercentage frames = lossPercentage frames' := by
  have hcounters : frames.map (·.counter) = frames'.map (·.counter) := by
    induction h with
    | nil => rfl
    | cons hframe _ ih => rw [List.map_cons, List.map_cons, hframe.1, ih]
  simp only [lossPercentage, span, hcounters, h.length_eq]

end Window

namespace ChannelPlan

variable {p : ChannelPlan} {n n' : Nat}

theorem stepsIn_mono {d : Nat} {fits : Format.single.Fits d} (hstep : p.step = .finite false d fits)
    (hd : 0 < d) {margin margin' : Single} (h : margin ≤ margin') :
    p.stepsIn margin ≤ p.stepsIn margin' := by
  unfold stepsIn
  split
  · next hpos =>
    rw [if_pos (Binary.lt_of_lt_of_le hpos h), hstep]
    exact Binary.floorNat_mono _ (Binary.div_le_div_right hd h)
  · exact Nat.zero_le _

theorem raiseDataRate_mono (hascend : (p.dataRates.map (·.index)).Pairwise (· < ·)) (rate : UInt8)
    (h : n ≤ n') : (p.raiseDataRate n rate).2 ≤ (p.raiseDataRate n' rate).2 := by
  obtain ⟨-, hreached⟩ := raiseDataRate_eq hascend n rate
  obtain ⟨-, hreached'⟩ := raiseDataRate_eq hascend n' rate
  have hsorted : (rate :: p.faster rate).Pairwise (· < ·) :=
    List.pairwise_cons.2 ⟨fun i hi ↦ (p.mem_faster.1 hi).2.1, hascend.filter _⟩
  have hle : min n (p.faster rate).length ≤ min n' (p.faster rate).length := by omega
  obtain ⟨hlt, hget⟩ := List.getElem?_eq_some_iff.1 hreached
  obtain ⟨hlt', hget'⟩ := List.getElem?_eq_some_iff.1 hreached'
  rw [← hget, ← hget']
  rcases Nat.lt_or_eq_of_le hle with hless | heq
  · exact UInt8.le_of_lt (List.pairwise_iff_getElem.1 hsorted _ _ hlt hlt' hless)
  · simp only [heq, UInt8.le_refl]

theorem lowerPower_mono (hascend : (p.dataRates.map (·.index)).Pairwise (· < ·))
    (rate power : UInt8) (h : n ≤ n') : p.lowerPower (p.raiseDataRate n rate).1 power ≤
      p.lowerPower (p.raiseDataRate n' rate).1 power := by
  rw [UInt8.le_iff_toNat_le, toNat_lowerPower, toNat_lowerPower,
    (raiseDataRate_eq hascend n rate).1, (raiseDataRate_eq hascend n' rate).1]
  omega

end ChannelPlan

variable {frames frames' : List Frame} {b : Band} {current : Settings} {margin margin' : Single}
  {config : Config}

theorem decide_improves (hheard : Window.HeardBetter frames frames') (hmargin : margin' ≤ margin)
    (hfinite : margin.isFinite = true) (hfinite' : margin'.isFinite = true)
    (hlisted : current.dataRate ∈ b.plan.dataRates.map (·.index))
    (hpos : 1 ≤ config.maxTransmissions) (hle : config.maxTransmissions ≤ 15) :
    ∃ decision decision', decide frames b.plan current margin config = .ok decision ∧
      decide frames' b.plan current margin' config = .ok decision' ∧
      decision.linkMargin ≤ decision'.linkMargin ∧ decision.steps ≤ decision'.steps ∧
      decision.target.dataRate ≤ decision'.target.dataRate ∧
      decision.target.txPower ≤ decision'.target.txPower ∧ decision.loss = decision'.loss ∧
      decision.target.transmissions = decision'.target.transmissions := by
  have hlt : config.maxTransmissions < 255 := UInt8.lt_of_le_of_lt hle (by decide)
  obtain ⟨decision, hd⟩ : ∃ decision, decide frames b.plan current margin config = .ok decision :=
    (exists_decide_iff hpos hlt).2 hlisted
  obtain ⟨decision', hd'⟩ : ∃ decision, decide frames' b.plan current margin' config =
      .ok decision := (exists_decide_iff hpos hlt).2 hlisted
  obtain ⟨rate, h⟩ := decides_of_decide hd
  obtain ⟨rate', h'⟩ := decides_of_decide hd'
  obtain rfl : rate = rate' := Option.some.inj (h.listed.symm.trans h'.listed)
  have hascend := (ChannelPlan.lawful b).indices_ascend
  have hfloor : rate.requiredSnr.isFinite = true :=
    ChannelPlan.isFinite_requiredSnr b rate (List.mem_of_find?_eq_some h.listed)
  have hlink : decision.linkMargin ≤ decision'.linkMargin := by
    rw [h.linkMargin, h'.linkMargin]
    apply Binary.sub_le_sub _ hmargin hfinite hfinite'
    exact Binary.sub_le_sub hheard.maxSnr_le (Binary.le_refl_of_isFinite hfloor) hfloor hfloor
  have hsteps : decision.steps ≤ decision'.steps := by
    rw [h.steps, h'.steps]
    exact ChannelPlan.stepsIn_mono (ChannelPlan.step_eq b) (by decide) hlink
  have hloss : decision.loss = decision'.loss := by
    rw [h.loss, h'.loss]
    exact hheard.lossPercentage_eq
  refine ⟨decision, decision', hd, hd', hlink, hsteps, ?_, ?_, hloss, ?_⟩
  · rw [h.dataRate, h'.dataRate]
    exact ChannelPlan.raiseDataRate_mono hascend _ hsteps
  · rw [h.txPower, h'.txPower]
    exact ChannelPlan.lowerPower_mono hascend _ _ hsteps
  · have hsame := h.transmissions
    rw [hloss, h'.transmissions] at hsame
    exact (Except.ok.inj hsame).symm

/-- Nine decibels more and a smaller reserve: the faster data rates are reached in both cases, and
the second leaves steps for lower power. -/
theorem decide_improves_nearby : ∃ decision decision',
    decide [⟨7, .ofNat 10, 1⟩] Band.eu863.plan ⟨0, 1, 1⟩ (.ofNat 15) {} = .ok decision ∧
      decide [⟨7, .ofNat 19, 2⟩] Band.eu863.plan ⟨0, 1, 1⟩ (.ofNat 12) {} = .ok decision' ∧
      decision.linkMargin ≤ decision'.linkMargin ∧ decision.steps = 5 ∧ decision'.steps = 9 ∧
      decision.target = ⟨5, 1, 1⟩ ∧ decision'.target = ⟨5, 5, 1⟩ ∧
      decision.loss = decision'.loss := by
  have hheard : Window.HeardBetter [⟨7, .ofNat 10, 1⟩] [⟨7, .ofNat 19, 2⟩] :=
    .cons ⟨rfl, by decide +kernel⟩ .nil
  have hmargin : (.ofNat 12 : Single) ≤ .ofNat 15 := by decide +kernel
  have hlisted : (⟨0, 1, 1⟩ : Settings).dataRate ∈ Band.eu863.plan.dataRates.map (·.index) := by
    decide +kernel
  have hpos : 1 ≤ ({} : Config).maxTransmissions := by decide
  obtain ⟨decision, decision', hd, hd', hlink, -, -, -, hloss, -⟩ :=
    decide_improves hheard hmargin (by decide +kernel) (by decide +kernel) hlisted hpos (by decide)
  have hfar : (AdaptiveRate.decide [⟨7, .ofNat 10, 1⟩] Band.eu863.plan ⟨0, 1, 1⟩ (.ofNat 15)
      {}).map (fun d ↦ (d.steps, d.target)) = .ok (5, ⟨5, 1, 1⟩) := by decide +kernel
  have hnear : (AdaptiveRate.decide [⟨7, .ofNat 19, 2⟩] Band.eu863.plan ⟨0, 1, 1⟩ (.ofNat 12)
      {}).map (fun d ↦ (d.steps, d.target)) = .ok (9, ⟨5, 5, 1⟩) := by decide +kernel
  rw [hd] at hfar
  rw [hd'] at hnear
  obtain ⟨hsteps, htarget⟩ := Prod.mk.inj (Except.ok.inj hfar)
  obtain ⟨hsteps', htarget'⟩ := Prod.mk.inj (Except.ok.inj hnear)
  exact ⟨decision, decision', hd, hd', hlink, hsteps, hsteps', htarget, htarget', hloss⟩

end AdaptiveRate
