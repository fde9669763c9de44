import AdaptiveRate.Proofs.Allocation
import Mathlib.Logic.Function.Iterate

namespace Function

variable {α : Type} {g : α → α} {μ : α → Nat} (h : ∀ a, g a = a ∨ μ (g a) < μ a)

include h

/-- Steps that lower a measure whenever they change anything come to rest. -/
theorem iterate_rests {a : α} {n : Nat} (hn : μ a ≤ n) : g (g^[n] a) = g^[n] a := by
  induction n generalizing a with
  | zero =>
    rcases h a with hfixed | hless
    · exact hfixed
    · omega
  | succ n ih =>
    rw [iterate_succ_apply]
    rcases h a with hfixed | hless
    · rw [hfixed, iterate_fixed hfixed, hfixed]
    · exact ih (by omega)

theorem measure_iterate_le (a : α) (n : Nat) : μ (g^[n] a) ≤ μ a := by
  induction n generalizing a with
  | zero => exact Nat.le_refl _
  | succ n ih =>
    rw [iterate_succ_apply]
    refine (ih (g a)).trans ?_
    rcases h a with hfixed | hless
    · rw [hfixed]
    · exact hless.le

theorem iterate_eq_of_return {a : α} {i j k : Nat} (hij : i ≤ j) (hjk : j ≤ k)
    (hback : g^[k] a = g^[i] a) : g^[j] a = g^[i] a := by
  obtain ⟨m, rfl⟩ := Nat.exists_eq_add_of_le' hij
  obtain ⟨n, rfl⟩ := Nat.exists_eq_add_of_le' hjk
  rw [← Nat.add_assoc, iterate_add_apply] at hback
  rw [iterate_add_apply]
  generalize g^[i] a = s at hback ⊢
  rcases h s with hfixed | hless
  · exact iterate_fixed hfixed m
  · cases hm : n + m with
    | zero =>
      obtain rfl : m = 0 := by omega
      rfl
    | succ l =>
      rw [hm, iterate_succ_apply] at hback
      have hle := measure_iterate_le h (g s) l
      rw [hback] at hle
      omega

end Function

namespace AdaptiveRate

open AdaptiveRate.Number

namespace LossThresholds

variable {t : LossThresholds} {top current loss n : UInt8}

/-- How far a number of transmissions is, at most, from where a loss takes it. -/
def remoteness (t : LossThresholds) (top loss n : UInt8) : Nat :=
  if loss < t.reduceBelow ∨ loss < t.keepBelow then
    if n.toNat = 0 then 1 else min n.toNat (top.toNat + 1) - 1
  else if top.toNat < n.toNat then 1
  else top.toNat - n.toNat

theorem remoteness_le (htop : 1 ≤ top) : t.remoteness top loss n ≤ top.toNat := by
  have htop : 1 ≤ top.toNat := UInt8.le_iff_toNat_le.1 htop
  unfold remoteness
  split
  · split <;> omega
  · split <;> omega

theorem remoteness_lt (htop : 1 ≤ top) (h : t.transmissions top current loss = .ok n)
    (hne : n ≠ current) : t.remoteness top loss n < t.remoteness top loss current := by
  have htop : 1 ≤ top.toNat := UInt8.le_iff_toNat_le.1 htop
  have hnat := toNat_transmissions h
  have hne : n.toNat ≠ current.toNat := fun heq ↦ hne (UInt8.toNat_inj.1 heq)
  unfold remoteness
  by_cases hreduce : loss < t.reduceBelow
  · simp only [hreduce, if_true, true_or] at hnat ⊢
    split <;> split <;> omega
  · by_cases hkeep : loss < t.keepBelow
    · simp only [hreduce, hkeep, if_true, if_false, false_or] at hnat ⊢
      split <;> split <;> omega
    · simp only [hreduce, hkeep, if_false, false_or] at hnat ⊢
      split at hnat <;> split <;> split <;> omega

end LossThresholds

namespace ChannelPlan

variable {p : ChannelPlan}

theorem length_faster_raiseDataRate (h : (p.dataRates.map (·.index)).Pairwise (· < ·)) (n : Nat)
    (rate : UInt8) :
    (p.faster (p.raiseDataRate n rate).2).length = (p.faster rate).length - n := by
  induction n generalizing rate with
  | zero => rfl
  | succ n ih =>
    cases hnext : p.nextDataRate rate with
    | none =>
      have hnil : p.faster rate = [] := by
        rw [nextDataRate_eq_head? h] at hnext
        exact List.head?_eq_none_iff.1 hnext
      simp [raiseDataRate, hnext, hnil]
    | some next =>
      rw [raiseDataRate, hnext, faster_eq_cons h hnext, ih, List.length_cons, Nat.add_sub_add_right]

def roomAbove (p : ChannelPlan) (s : Settings) : Nat :=
  (p.faster s.dataRate).length + (p.minTxPowerIndex.toNat - s.txPower.toNat)

theorem roomAbove_le (p : ChannelPlan) (s : Settings) (hpowers : p.txPowers.length ≤ 256) :
    p.roomAbove s ≤ p.dataRates.length + p.txPowers.length := by
  have hfaster : (p.faster s.dataRate).length ≤ p.dataRates.length := by
    simpa [faster] using List.length_filter_le _ (p.dataRates.map (·.index))
  have hweakest := toNat_minTxPowerIndex hpowers
  unfold roomAbove
  omega

end ChannelPlan

variable {frames : List Frame} {p : ChannelPlan} {current s : Settings} {margin : Single}
  {config : Config} {decision : Decision}

attribute [ext] Settings

section Allocates

variable (h : Allocates p decision) (hascend : (p.dataRates.map (·.index)).Pairwise (· < ·))

include h hascend

theorem Allocates.dataRate_eq_or_mem :
    decision.target.dataRate = decision.current.dataRate ∨
      decision.target.dataRate ∈ p.faster decision.current.dataRate := by
  obtain ⟨-, hreached⟩ :=
    ChannelPlan.raiseDataRate_eq hascend decision.steps decision.current.dataRate
  rw [← h.dataRate] at hreached
  simpa using List.mem_of_getElem? hreached

theorem Allocates.listed (hlisted : decision.current.dataRate ∈ p.dataRates.map (·.index)) :
    decision.target.dataRate ∈ p.dataRates.map (·.index) := by
  rcases h.dataRate_eq_or_mem hascend with hsame | hmem
  · rw [hsame]
    exact hlisted
  · exact (p.mem_faster.1 hmem).1

theorem Allocates.dataRate_le : decision.current.dataRate ≤ decision.target.dataRate := by
  rcases h.dataRate_eq_or_mem hascend with hsame | hmem
  · rw [hsame]
    exact UInt8.le_refl _
  · exact UInt8.le_of_lt (p.mem_faster.1 hmem).2.1

omit hascend in
theorem Allocates.txPower_le : decision.current.txPower ≤ decision.target.txPower := by
  rw [UInt8.le_iff_toNat_le, h.txPower, p.toNat_lowerPower]
  exact Nat.le_add_right _ _

/-- Each step takes one entry, while there is one. -/
theorem Allocates.roomAbove_eq :
    p.roomAbove decision.target = p.roomAbove decision.current - decision.steps := by
  have hlen := ChannelPlan.length_faster_raiseDataRate hascend decision.steps
    decision.current.dataRate
  have hpower := p.toNat_lowerPower
    (p.raiseDataRate decision.steps decision.current.dataRate).1 decision.current.txPower
  obtain ⟨hleft, -⟩ :=
    ChannelPlan.raiseDataRate_eq hascend decision.steps decision.current.dataRate
  rw [← h.dataRate] at hlen
  rw [← h.txPower, hleft] at hpower
  unfold ChannelPlan.roomAbove
  omega

theorem Allocates.eq_of_roomAbove_eq
    (hroom : p.roomAbove decision.target = p.roomAbove decision.current) :
    decision.target.dataRate = decision.current.dataRate ∧
      decision.target.txPower = decision.current.txPower := by
  have hpower := p.toNat_lowerPower
    (p.raiseDataRate decision.steps decision.current.dataRate).1 decision.current.txPower
  obtain ⟨hleft, hreached⟩ :=
    ChannelPlan.raiseDataRate_eq hascend decision.steps decision.current.dataRate
  rw [← h.dataRate] at hreached
  rw [← h.txPower, hleft] at hpower
  rw [h.roomAbove_eq hascend] at hroom
  unfold ChannelPlan.roomAbove at hroom
  have hnone : min decision.steps (p.faster decision.current.dataRate).length = 0 := by omega
  rw [hnone] at hreached
  exact ⟨(Option.some.inj hreached).symm, UInt8.toNat_inj.1 (by omega)⟩

end Allocates

def changesLeft (frames : List Frame) (p : ChannelPlan) (config : Config) (s : Settings) : Nat :=
  p.roomAbove s + config.thresholds.remoteness config.maxTransmissions
    (Window.lossPercentage frames) s.transmissions

theorem changesLeft_le (hpowers : p.txPowers.length ≤ 256) (hpos : 1 ≤ config.maxTransmissions) :
    changesLeft frames p config s ≤
      p.dataRates.length + p.txPowers.length + config.maxTransmissions.toNat :=
  Nat.add_le_add (p.roomAbove_le s hpowers) (LossThresholds.remoteness_le hpos)

/-- One more decision on a window, from the settings the last one aimed at. -/
def retune (frames : List Frame) (p : ChannelPlan) (margin : Single) (config : Config)
    (s : Settings) : Settings :=
  match decide frames p s margin config with
  | .ok decision => decision.target
  | .error _ => s

theorem retune_eq (h : decide frames p s margin config = .ok decision) :
    retune frames p margin config s = decision.target := by
  rw [retune, h]

/-- A decision that changes anything leaves less to change. -/
theorem retune_rests (hascend : (p.dataRates.map (·.index)).Pairwise (· < ·))
    (hpos : 1 ≤ config.maxTransmissions) (s : Settings) :
    retune frames p margin config s = s ∨
      changesLeft frames p config (retune frames p margin config s) <
        changesLeft frames p config s := by
  cases hd : decide frames p s margin config with
  | error stop => exact .inl (by rw [retune, hd])
  | ok decision =>
    rw [retune_eq hd]
    obtain ⟨rfl, hallocates⟩ := allocates_of_decide hd
    obtain ⟨rate, hdecides⟩ := decides_of_decide hd
    have hroom := hallocates.roomAbove_eq hascend
    have htransmissions := hdecides.transmissions
    rw [hdecides.loss] at htransmissions
    unfold changesLeft
    -- The room in the tables and the distance of the transmissions each fall or stay the same.
    by_cases hsame : p.roomAbove decision.target = p.roomAbove decision.current
    · obtain ⟨hrate, hpower⟩ := hallocates.eq_of_roomAbove_eq hascend hsame
      by_cases hn : decision.target.transmissions = decision.current.transmissions
      · exact .inl (Settings.ext hrate hpower hn)
      · right
        have hless := LossThresholds.remoteness_lt hpos htransmissions hn
        omega
    · right
      by_cases hn : decision.target.transmissions = decision.current.transmissions
      · rw [hn]
        omega
      · have hless := LossThresholds.remoteness_lt hpos htransmissions hn
        omega

theorem decide_retune (frames : List Frame) (margin : Single)
    (hascend : (p.dataRates.map (·.index)).Pairwise (· < ·))
    (hpos : 1 ≤ config.maxTransmissions) (hlt : config.maxTransmissions < 255)
    (hlisted : s.dataRate ∈ p.dataRates.map (·.index)) :
    ∃ decision, decide frames p s margin config = .ok decision ∧ decision.current = s ∧
      Allocates p decision ∧ decision.target = retune frames p margin config s ∧
      (retune frames p margin config s).dataRate ∈ p.dataRates.map (·.index) := by
  obtain ⟨decision, hd⟩ : ∃ decision, decide frames p s margin config = .ok decision :=
    (exists_decide_iff hpos hlt).2 hlisted
  obtain ⟨rfl, hallocates⟩ := allocates_of_decide hd
  refine ⟨decision, hd, rfl, hallocates, (retune_eq hd).symm, ?_⟩
  rw [retune_eq hd]
  exact hallocates.listed hascend hlisted

variable {b : Band}

/-- Repeated decisions go one way through the tables, never come back to settings once left, and
rest after a round for each entry of the tables and each transmission. -/
theorem retune_converges (hlisted : current.dataRate ∈ b.plan.dataRates.map (·.index))
    (hpos : 1 ≤ config.maxTransmissions) (hle : config.maxTransmissions ≤ 15) (frames : List Frame)
    (margin : Single) :
    let round (n : Nat) : Settings := (retune frames b.plan margin config)^[n] current
    (∀ n, ∃ decision, decide frames b.plan (round n) margin config = .ok decision ∧
      decision.target = round (n + 1) ∧ (round n).dataRate ≤ (round (n + 1)).dataRate ∧
      (round n).txPower ≤ (round (n + 1)).txPower) ∧
    (∀ i j k, i ≤ j → j ≤ k → round k = round i → round j = round i) ∧
    ∃ n ≤ b.plan.dataRates.length + b.plan.txPowers.length + config.maxTransmissions.toNat + 1,
      (∃ decision, decide frames b.plan (round n) margin config = .ok decision ∧
        decision.isChange = false) ∧
      ∀ m, n ≤ m → round m = round n := by
  intro round
  have hlt : config.maxTransmissions < 255 := UInt8.lt_of_le_of_lt hle (by decide)
  have hascend := (ChannelPlan.lawful b).indices_ascend
  have hrests : ∀ s, retune frames b.plan margin config s = s ∨ _ := retune_rests hascend hpos
  have hround : ∀ n, (round n).dataRate ∈ b.plan.dataRates.map (·.index) := by
    intro n
    induction n with
    | zero => exact hlisted
    | succ n ih =>
      obtain ⟨-, -, -, -, -, hnext⟩ := decide_retune frames margin hascend hpos hlt ih
      simp only [round, Function.iterate_succ_apply']
      exact hnext
  have hbound : changesLeft frames b.plan config current ≤
      b.plan.dataRates.length + b.plan.txPowers.length + config.maxTransmissions.toNat :=
    changesLeft_le ((ChannelPlan.lawful b).powers_length.trans (by decide)) hpos
  refine ⟨fun n ↦ ?_, fun i j k hij hjk ↦ Function.iterate_eq_of_return hrests hij hjk, ?_⟩
  · obtain ⟨decision, hd, hcurrent, hallocates, htarget, -⟩ :=
      decide_retune frames margin hascend hpos hlt (hround n)
    have hnext : decision.target = round (n + 1) := by
      simp only [round, Function.iterate_succ_apply']
      exact htarget
    refine ⟨decision, hd, hnext, ?_, ?_⟩
    · rw [← hnext, ← hcurrent]
      exact hallocates.dataRate_le hascend
    · rw [← hnext, ← hcurrent]
      exact hallocates.txPower_le
  · have hfixed : retune frames b.plan margin config
        (round (changesLeft frames b.plan config current)) = _ :=
      Function.iterate_rests hrests (Nat.le_refl _)
    generalize changesLeft frames b.plan config current = n at hbound hfixed
    refine ⟨n, by omega, ?_, fun m hm ↦ ?_⟩
    · obtain ⟨decision, hd, hcurrent, -, htarget, -⟩ :=
        decide_retune frames margin hascend hpos hlt (hround n)
      refine ⟨decision, hd, ?_⟩
      rw [Decision.isChange, hcurrent, htarget, hfixed, bne_self_eq_false]
    · obtain ⟨k, rfl⟩ := Nat.exists_eq_add_of_le' hm
      exact (Function.iterate_add_apply _ k n current).trans (Function.iterate_fixed hfixed k)

/-- From the slowest data rate at the second power, five steps go to data rates and three to power.
The next decision finds a step for the power that is left, and the one after it nothing. -/
theorem retune_converges_slowest :
    let round (n : Nat) : Settings :=
      (retune [⟨7, .ofNat 19, 1⟩] Band.eu863.plan (.ofNat 15) {})^[n] ⟨0, 1, 3⟩
    round 1 = ⟨5, 4, 2⟩ ∧ (∀ n, 2 ≤ n → round n = ⟨5, 5, 1⟩) ∧
      ∃ decision, decide [⟨7, .ofNat 19, 1⟩] Band.eu863.plan ⟨5, 5, 1⟩ (.ofNat 15) {} =
        .ok decision ∧ decision.isChange = false := by
  intro round
  have hlisted : (⟨0, 1, 3⟩ : Settings).dataRate ∈ Band.eu863.plan.dataRates.map (·.index) := by
    decide +kernel
  have hpos : 1 ≤ ({} : Config).maxTransmissions := by decide
  obtain ⟨-, hreturn, n, hn, ⟨decision, hd, hchange⟩, hrest⟩ :=
    retune_converges hlisted hpos (by decide) [⟨7, .ofNat 19, 1⟩] (.ofNat 15)
  have hfirst : round 1 = ⟨5, 4, 2⟩ := by decide +kernel
  have hsecond : round 2 = ⟨5, 5, 1⟩ := by decide +kernel
  have hlast : round 17 = ⟨5, 5, 1⟩ := by decide +kernel
  have hresting : round n = ⟨5, 5, 1⟩ := (hrest 17 hn).symm.trans hlast
  refine ⟨hfirst, fun m hm ↦ ?_, decision, ?_, hchange⟩
  · rcases Nat.le_total m 17 with hle | hle
    · exact (hreturn 2 m 17 hm hle (hlast.trans hsecond.symm)).trans hsecond
    · exact (hrest m (hn.trans hle)).trans hresting
  · rw [← hresting]
    exact hd

end AdaptiveRate
