import AdaptiveRate.Proofs.Band
import AdaptiveRate.Proofs.Decision
import AdaptiveRate.Proofs.Number.Order
import AdaptiveRate.Proofs.Range
import Mathlib.Order.Defs.LinearOrder

namespace List

variable {a : UInt8} {l : List UInt8}

theorem filter_find?_lt (h : l.Pairwise (· < ·)) (top : UInt8) :
    (l.find? (a < ·)).filter (· ≤ top) = (l.filter fun i ↦ a < i && i ≤ top).head? := by
  induction l with
  | nil => rfl
  | cons b l ih =>
    obtain ⟨hb, hl⟩ := pairwise_cons.1 h
    by_cases hab : a < b
    · by_cases hbt : b ≤ top
      · simp [hab, hbt]
      · have hrest : (l.filter fun i ↦ a < i && i ≤ top) = [] := by
          apply filter_eq_nil_iff.2
          intro i hi hboth
          simp only [Bool.and_eq_true, decide_eq_true_eq] at hboth
          exact hbt (UInt8.le_trans (UInt8.le_of_lt (hb i hi)) hboth.2)
        simp [hab, hbt, hrest, Option.filter]
    · rw [find?_cons_of_neg (by simpa using hab), filter_cons_of_neg (by simp [hab])]
      exact ih hl

end List

namespace AdaptiveRate

open AdaptiveRate.Number

namespace ChannelPlan

variable (p : ChannelPlan) {rate next : UInt8}

/-- The data rates above one that are assigned, slowest first. -/
def faster (rate : UInt8) : List UInt8 :=
  (p.dataRates.map (·.index)).filter fun i ↦ rate < i && i ≤ p.maxAdrDataRate

theorem mem_faster {i : UInt8} :
    i ∈ p.faster rate ↔ i ∈ p.dataRates.map (·.index) ∧ rate < i ∧ i ≤ p.maxAdrDataRate := by
  simp [faster]

variable {p} (h : (p.dataRates.map (·.index)).Pairwise (· < ·))

include h

theorem nextDataRate_eq_head? : p.nextDataRate rate = (p.faster rate).head? :=
  List.filter_find?_lt h p.maxAdrDataRate

theorem faster_eq_cons (hnext : p.nextDataRate rate = some next) :
    p.faster rate = next :: p.faster next := by
  rw [nextDataRate_eq_head? h] at hnext
  obtain ⟨rest, hfaster⟩ := List.head?_eq_some_iff.1 hnext
  have hsorted : (next :: rest).Pairwise (· < ·) := hfaster ▸ h.filter _
  have hrate : rate < next := (p.mem_faster.1 (hfaster ▸ List.mem_cons_self)).2.1
  have habove : p.faster next = (p.faster rate).filter (next < ·) := by
    simp only [faster, List.filter_filter]
    apply List.filter_congr
    intro i _
    by_cases hi : next < i
    · simp [hi, UInt8.lt_trans hrate hi]
    · simp [hi]
  have hrest : rest.filter (next < ·) = rest := by
    apply List.filter_eq_self.2
    intro i hi
    simpa using (List.pairwise_cons.1 hsorted).1 i hi
  rw [habove, hfaster, List.filter_cons_of_neg (by simp), hrest]

/-- Each step takes the data rate one entry further, as long as there is one. -/
theorem raiseDataRate_eq (n : Nat) (rate : UInt8) :
    (p.raiseDataRate n rate).1 = n - min n (p.faster rate).length ∧
      (rate :: p.faster rate)[min n (p.faster rate).length]? =
        some (p.raiseDataRate n rate).2 := by
  induction n generalizing rate with
  | zero => simp [raiseDataRate]
  | succ n ih =>
    cases hnext : p.nextDataRate rate with
    | none =>
      have hnil : p.faster rate = [] := by
        rw [nextDataRate_eq_head? h] at hnext
        exact List.head?_eq_none_iff.1 hnext
      simp [raiseDataRate, hnext, hnil]
    | some next =>
      obtain ⟨hleft, hreached⟩ := ih next
      have hlen : min (n + 1) ((p.faster next).length + 1) = min n (p.faster next).length + 1 :=
        Nat.add_min_add_right n (p.faster next).length 1
      rw [raiseDataRate, hnext, faster_eq_cons h hnext, List.length_cons, hlen]
      refine ⟨?_, ?_⟩
      · rw [hleft]
        omega
      · rw [List.getElem?_cons_succ]
        exact hreached

theorem faster_of_left_ne_zero (n : Nat) (rate : UInt8) (hleft : (p.raiseDataRate n rate).1 ≠ 0) :
    p.faster (p.raiseDataRate n rate).2 = [] := by
  induction n generalizing rate with
  | zero => exact absurd rfl hleft
  | succ n ih =>
    cases hnext : p.nextDataRate rate with
    | none =>
      simp only [raiseDataRate, hnext]
      rw [nextDataRate_eq_head? h] at hnext
      exact List.head?_eq_none_iff.1 hnext
    | some next =>
      simp only [raiseDataRate, hnext] at hleft ⊢
      exact ih next hleft

end ChannelPlan

variable {frames : List Frame} {p : ChannelPlan} {current : Settings} {margin : Single}
  {config : Config} {decision : Decision}

theorem ChannelPlan.stepsIn_lt (p : ChannelPlan) (margin : Single) : p.stepsIn margin < 2 ^ 32 := by
  unfold stepsIn
  split
  · exact Nat.lt_of_le_of_lt (Number.Binary.floorNat_le _ _) (by decide)
  · decide

theorem ChannelPlan.toNat_minTxPowerIndex (h : p.txPowers.length ≤ 256) :
    p.minTxPowerIndex.toNat = p.txPowers.length - 1 := by
  rw [minTxPowerIndex, UInt8.toNat_ofNat']
  exact Nat.mod_eq_of_lt (by omega)

structure Allocates (p : ChannelPlan) (decision : Decision) : Prop where
  steps_lt : decision.steps < 2 ^ 32
  dataRate : decision.target.dataRate =
    (p.raiseDataRate decision.steps decision.current.dataRate).2
  txPower : decision.target.txPower = p.lowerPower
    (p.raiseDataRate decision.steps decision.current.dataRate).1 decision.current.txPower

theorem allocates_of_decide (h : decide frames p current margin config = .ok decision) :
    decision.current = current ∧ Allocates p decision := by
  obtain ⟨rate, hdecides⟩ := decides_of_decide h
  obtain rfl := hdecides.starts
  refine ⟨rfl, ?_, hdecides.dataRate, hdecides.txPower⟩
  rw [hdecides.steps]
  exact p.stepsIn_lt _

theorem ChannelPlan.dataRateByIndex_eq_none_iff {i : UInt8} :
    p.dataRateByIndex i = none ↔ i ∉ p.dataRates.map (·.index) := by
  simp [dataRateByIndex, List.find?_eq_none]

theorem exists_decide_iff (hpos : 1 ≤ config.maxTransmissions)
    (hlt : config.maxTransmissions < 255) :
    (∃ decision, decide frames p current margin config = .ok decision) ↔
      current.dataRate ∈ p.dataRates.map (·.index) := by
  have hnone := ChannelPlan.dataRateByIndex_eq_none_iff (p := p) (i := current.dataRate)
  unfold decide
  cases hrate : p.dataRateByIndex current.dataRate with
  | none => simpa using hnone.1 hrate
  | some rate =>
    have hmem : current.dataRate ∈ p.dataRates.map (·.index) := by
      by_contra hout
      rw [hnone.2 hout] at hrate
      cases hrate
    obtain ⟨n, hn⟩ : ∃ n, config.thresholds.transmissions config.maxTransmissions
        current.transmissions (Window.lossPercentage frames) = .ok n :=
      LossThresholds.exists_transmissions hpos hlt
    simp only [hn, hmem, iff_true]
    exact ⟨_, rfl⟩

theorem exists_error_decide_iff (hpos : 1 ≤ config.maxTransmissions)
    (hlt : config.maxTransmissions < 255) :
    (∃ err, decide frames p current margin config = .error (.error err)) ↔
      current.dataRate ∉ p.dataRates.map (·.index) := by
  have hok : (∃ decision, decide frames p current margin config = .ok decision) ↔
      current.dataRate ∈ p.dataRates.map (·.index) := exists_decide_iff hpos hlt
  rw [← hok]
  cases hd : decide frames p current margin config with
  | ok decision => simp
  | error stop =>
    cases stop with
    | error err => simp
    | crash c => exact absurd hd (decide_ne_crash hpos hlt c)

/-- The steps that are left once the last data rate is reached go to lower power, and none
before. -/
theorem decide_greedy (frames : List Frame) (margin : Single) (current : Settings)
    (hindices : (p.dataRates.map (·.index)).Pairwise (· < ·)) (hpowers : p.txPowers.length ≤ 256)
    (hpos : 1 ≤ config.maxTransmissions) (hle : config.maxTransmissions ≤ 15) :
    ((∃ err, decide frames p current margin config = .error (.error err)) ↔
      current.dataRate ∉ p.dataRates.map (·.index)) ∧
    ((∃ decision, decide frames p current margin config = .ok decision) ↔
      current.dataRate ∈ p.dataRates.map (·.index)) ∧
    p.minTxPowerIndex.toNat = p.txPowers.length - 1 ∧
    ∀ decision, decide frames p current margin config = .ok decision →
      let k := min decision.steps (p.faster current.dataRate).length
      let weakest := p.minTxPowerIndex.toNat
      decision.steps < 2 ^ 32 ∧
      (current.dataRate :: p.faster current.dataRate)[k]? = some decision.target.dataRate ∧
      decision.target.txPower.toNat = current.txPower.toNat +
        min (decision.steps - k) (weakest - current.txPower.toNat) ∧
      current.dataRate ≤ decision.target.dataRate ∧
      current.txPower ≤ decision.target.txPower ∧
      decision.target.dataRate ∈ p.dataRates.map (·.index) ∧
      (p.maxAdrDataRate < current.dataRate → decision.target.dataRate = current.dataRate) ∧
      (decision.target.txPower ≠ current.txPower → p.faster decision.target.dataRate = []) := by
  have hlt : config.maxTransmissions < 255 := UInt8.lt_of_le_of_lt hle (by decide)
  refine ⟨exists_error_decide_iff hpos hlt, exists_decide_iff hpos hlt,
    ChannelPlan.toNat_minTxPowerIndex hpowers, fun decision hd ↦ ?_⟩
  obtain ⟨rfl, hsteps, hrate, hpower⟩ := allocates_of_decide hd
  have hlisted := (exists_decide_iff hpos hlt).1 ⟨decision, hd⟩
  obtain ⟨hleft, hreached⟩ :=
    ChannelPlan.raiseDataRate_eq hindices decision.steps decision.current.dataRate
  have hlowered := p.toNat_lowerPower
    (p.raiseDataRate decision.steps decision.current.dataRate).1 decision.current.txPower
  rw [← hrate] at hreached
  rw [← hpower, hleft] at hlowered
  have hplace : decision.target.dataRate = decision.current.dataRate ∨
      decision.target.dataRate ∈ p.faster decision.current.dataRate := by
    simpa using List.mem_of_getElem? hreached
  refine ⟨hsteps, hreached, hlowered, ?_, ?_, ?_, ?_, ?_⟩
  · rcases hplace with hsame | hmem
    · exact hsame ▸ UInt8.le_refl _
    · exact UInt8.le_of_lt (p.mem_faster.1 hmem).2.1
  · rw [UInt8.le_iff_toNat_le, hlowered]
    exact Nat.le_add_right _ _
  · rcases hplace with hsame | hmem
    · exact hsame ▸ hlisted
    · exact (p.mem_faster.1 hmem).1
  · intro habove
    rcases hplace with hsame | hmem
    · exact hsame
    · obtain ⟨-, hgt, hle⟩ := p.mem_faster.1 hmem
      exact absurd (UInt8.lt_of_lt_of_le hgt hle) (UInt8.not_lt.2 (UInt8.le_of_lt habove))
  · intro hchanged
    rw [hrate]
    apply ChannelPlan.faster_of_left_ne_zero hindices
    intro hnone
    apply hchanged
    rw [← UInt8.toNat_inj, hlowered, ← hleft, hnone, Nat.zero_min, Nat.add_zero]

theorem ChannelPlan.greedy_table (b : Band) :
    (b.plan.dataRates.map (·.index)).Pairwise (· < ·) ∧ b.plan.txPowers.length ≤ 256 :=
  ⟨(lawful b).indices_ascend, (lawful b).powers_length.trans (by decide)⟩

/-- Twenty-four decibels of margin take the slowest data rate to the fastest in five steps, and
lower the power in the three that are left. -/
theorem decide_greedy_slowest : ∃ decision,
    decide [⟨7, .ofNat 19, 1⟩] Band.eu863.plan ⟨0, 1, 1⟩ (.ofNat 15) {} = .ok decision ∧
      decision.steps = 8 ∧ decision.target.dataRate = 5 ∧ decision.target.txPower = 4 := by
  obtain ⟨hascend, hpowers⟩ := ChannelPlan.greedy_table .eu863
  have hpos : 1 ≤ ({} : Config).maxTransmissions := by decide
  obtain ⟨-, hlisted, -, hgreedy⟩ := decide_greedy [⟨7, .ofNat 19, 1⟩] (.ofNat 15)
    ⟨0, 1, 1⟩ hascend hpowers hpos (by decide)
  obtain ⟨decision, hd⟩ := hlisted.2 (by decide +kernel)
  have hsteps : decision.steps = 8 := by
    have heval : (AdaptiveRate.decide [⟨7, .ofNat 19, 1⟩] Band.eu863.plan ⟨0, 1, 1⟩ (.ofNat 15)
        {}).toOption.map (·.steps) = some 8 := by decide +kernel
    rw [hd] at heval
    exact Option.some.inj heval
  have hfaster : Band.eu863.plan.faster 0 = [1, 2, 3, 4, 5] := by decide +kernel
  have hweakest : Band.eu863.plan.minTxPowerIndex = 5 := by decide +kernel
  obtain ⟨-, hrate, hpower, -⟩ := hgreedy decision hd
  rw [hsteps] at hrate hpower
  simp only [hfaster, hweakest] at hrate hpower
  exact ⟨decision, hd, hsteps, (Option.some.inj hrate).symm, UInt8.toNat_inj.1 hpower⟩

end AdaptiveRate
