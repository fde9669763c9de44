import AdaptiveRate.Proofs.Allocation
import Mathlib.Algebra.Order.Field.Rat
import Mathlib.Tactic.FieldSimp
import Mathlib.Tactic.Linarith

namespace AdaptiveRate

open AdaptiveRate.Number

namespace Number.Binary

variable {f : Format} {a b : Binary f} {x : Int}

def value : Binary f → ℚ
  | .finite s m _ => signed s m / f.one
  | _ => 0

theorem value_eq (ha : a.isFinite = true) (hx : a.rank = some x) : a.value = x / f.one := by
  cases a with
  | nan => cases ha
  | infinite s => cases ha
  | finite s m fits =>
    cases hx
    rfl

def SubExact (a b : Binary f) : Prop := (a - b).isFinite = true ∧ (a - b).value = a.value - b.value

instance (a b : Binary f) : Decidable (SubExact a b) := inferInstanceAs (Decidable (_ ∧ _))

theorem floorNat_div_three (s : Bool) (m top : Nat) (fits : f.Fits m) (fits' : f.Fits (3 * f.one)) :
    (finite s m fits / finite false (3 * f.one) fits').floorNat top =
      if s then 0 else min top (f.round m 3 / f.one) := by
  have hround : f.round (m * f.one) (3 * f.one) = f.round m 3 := by
    rw [Nat.mul_comm m, Nat.mul_comm 3, f.round_mul_mul f.one_pos]
  have hle : f.round m 3 ≤ m := by
    calc f.round m 3 ≤ f.round (m * 3) 3 := f.round_mono (by omega)
      _ = m := f.round_mul three_pos fits.1
  rw [finite_div_finite (Nat.mul_pos three_pos f.one_pos),
    quotient_eq_finite (hround ▸ hle.trans_lt fits.2)]
  simp only [floorNat, hround]

/-- Steps of three that fit into a number by rounded division fit exactly. -/
theorem three_mul_le_of_le_floor {s : Bool} {m k top : Nat} {fits : f.Fits m}
    {fits' : f.Fits (3 * f.one)} (hscale : f.precision ≤ f.scale) (hpos : 0 < k)
    (hk : f.Fits (3 * (k * f.one)))
    (h : k ≤ (finite s m fits / finite false (3 * f.one) fits').floorNat top) :
    s = false ∧ 3 * (k * f.one) ≤ m := by
  rw [floorNat_div_three] at h
  cases s with
  | true => exact absurd (Nat.le_zero.1 h) hpos.ne'
  | false =>
    refine ⟨rfl, ?_⟩
    by_contra hless
    have hnormal : 2 ^ (f.precision - 1) < k * f.one := by
      calc 2 ^ (f.precision - 1) < 2 ^ f.scale :=
            Nat.pow_lt_pow_right (by decide) (by have := f.precision_pos; omega)
        _ ≤ k * 2 ^ f.scale := Nat.le_mul_of_pos_left _ hpos
    have hbelow := f.round_three_lt fits.1 hk.1 (not_le.1 hless) hnormal
    have hfloor : k ≤ f.round m 3 / f.one := (Nat.le_min.1 h).2
    exact absurd ((Nat.le_div_iff_mul_le f.one_pos).1 hfloor) (not_le.2 hbelow)

end Number.Binary

namespace ChannelPlan

variable (p : ChannelPlan) {rate power : UInt8}

def reach (n : Nat) (rate power : UInt8) : UInt8 × UInt8 :=
  ((p.raiseDataRate n rate).2, p.lowerPower (p.raiseDataRate n rate).1 power)

/-- Steps beyond the last data rate and the lowest power change nothing. -/
theorem reach_min (hascend : (p.dataRates.map (·.index)).Pairwise (· < ·)) {top : Nat}
    (htop : (p.faster rate).length + p.minTxPowerIndex.toNat ≤ top) (n : Nat) :
    p.reach n rate power = p.reach (min n top) rate power := by
  obtain ⟨hleft, hreached⟩ := raiseDataRate_eq hascend n rate
  obtain ⟨hleft', hreached'⟩ := raiseDataRate_eq hascend (min n top) rate
  have hmin : min (min n top) (p.faster rate).length = min n (p.faster rate).length := by omega
  rw [hmin, hreached] at hreached'
  have hpower := p.toNat_lowerPower (p.raiseDataRate n rate).1 power
  have hpower' := p.toNat_lowerPower (p.raiseDataRate (min n top) rate).1 power
  rw [reach, reach, Option.some.inj hreached', Prod.mk.injEq]
  refine ⟨rfl, UInt8.toNat_inj.1 ?_⟩
  rw [hpower, hpower', hleft, hleft', hmin]
  omega

/-- Units of signal that are needed beyond those that are sent. -/
def level (rate power : UInt8) : Option Int := do
  let rate ← p.dataRateByIndex rate
  let required ← rate.requiredSnr.rank
  let dbm ← p.txPowerDbm power
  return required - dbm.toInt * Format.single.one

/-- Decibels by which the flat price of a step may fall short of the true one. -/
def overdraft (rate power : UInt8) : Nat :=
  match p.band with
  | .eu863 => if power = 0 then 3 else 0
  | .kr920 => if power = 0 then 4 else if power = 1 ∧ 4 ≤ rate then 1 else 0
  | _ => 0

variable {p} in
theorem exists_of_level {z : Int} (hfinite : ∀ r ∈ p.dataRates, r.requiredSnr.isFinite = true)
    (h : p.level rate power = some z) : ∃ r dbm, p.dataRateByIndex rate = some r ∧
      p.txPowerDbm power = some dbm ∧
      (z : ℚ) / Format.single.one = r.requiredSnr.value - dbm.toInt := by
  have hone : (Format.single.one : ℚ) ≠ 0 := Nat.cast_ne_zero.2 Format.single.one_pos.ne'
  simp only [level, Option.bind_eq_bind, Option.bind_eq_some_iff] at h
  obtain ⟨r, hr, required, hrequired, dbm, hdbm, hz⟩ := h
  have hvalue := Binary.value_eq (hfinite r (List.mem_of_find?_eq_some hr)) hrequired
  refine ⟨r, dbm, hr, hdbm, ?_⟩
  cases hz
  rw [hvalue]
  push_cast
  field_simp

/-- Three decibels a step pay for every way through the tables, but for the starts at the strongest
powers of two bands. -/
theorem level_reach : ∀ b ∈ Band.all, b.plan.linkAdrSupported = true →
    ∀ rate ∈ b.plan.dataRates.map (·.index), ∀ power < b.plan.txPowers.length, ∀ n < 16,
      ∃ before ∈ b.plan.level rate (.ofNat power),
        ∃ after ∈ b.plan.level (b.plan.reach n rate (.ofNat power)).1
            (b.plan.reach n rate (.ofNat power)).2,
          after - before ≤
            (3 * n + b.plan.overdraft rate (.ofNat power) : Nat) * Format.single.one := by
  decide +kernel

/-- Each of the starts that are excepted does fall short after some steps. -/
theorem level_reach_of_overdraft : ∀ b ∈ Band.all, b.plan.linkAdrSupported = true →
    ∀ rate ∈ b.plan.dataRates.map (·.index), ∀ power < b.plan.txPowers.length,
      0 < b.plan.overdraft rate (.ofNat power) → ∃ n < 16,
        ∃ before ∈ b.plan.level rate (.ofNat power),
          ∃ after ∈ b.plan.level (b.plan.reach n rate (.ofNat power)).1
              (b.plan.reach n rate (.ofNat power)).2,
            3 * n * Format.single.one < after - before := by
  decide +kernel

/-- In decibels, what the way through the tables costs at the flat price. -/
theorem spent_reach_le {b : Band} {r : DataRate} {dbm : Int8} {n : Nat}
    (hsupported : b.plan.linkAdrSupported = true) (hrate : b.plan.dataRateByIndex rate = some r)
    (hdbm : b.plan.txPowerDbm power = some dbm) (hn : n < 16) :
    ∃ r' dbm', b.plan.dataRateByIndex (b.plan.reach n rate power).1 = some r' ∧
      b.plan.txPowerDbm (b.plan.reach n rate power).2 = some dbm' ∧
      r'.requiredSnr.value - r.requiredSnr.value + (dbm.toInt - dbm'.toInt) ≤
        (3 * n + b.plan.overdraft rate power : Nat) := by
  have hone : (0 : ℚ) < Format.single.one := Nat.cast_pos.2 Format.single.one_pos
  have hlisted := mem_indices_of_dataRateByIndex hrate
  obtain ⟨hpower, -⟩ := List.getElem?_eq_some_iff.1 hdbm
  obtain ⟨before, hbefore, after, hafter, hspent⟩ :=
    level_reach b b.mem_all hsupported _ hlisted _ hpower n hn
  rw [UInt8.ofNat_toNat] at hbefore hafter hspent
  obtain ⟨r₀, dbm₀, hr₀, hdbm₀, hlevel⟩ := exists_of_level (isFinite_requiredSnr b) hbefore
  obtain ⟨r', dbm', hr', hdbm', hlevel'⟩ := exists_of_level (isFinite_requiredSnr b) hafter
  obtain rfl : r₀ = r := Option.some.inj (hr₀.symm.trans hrate)
  obtain rfl : dbm₀ = dbm := Option.some.inj (hdbm₀.symm.trans hdbm)
  refine ⟨r', dbm', hr', hdbm', ?_⟩
  calc r'.requiredSnr.value - r₀.requiredSnr.value + (dbm₀.toInt - dbm'.toInt)
      = ((after - before : Int) : ℚ) / Format.single.one := by
        push_cast
        rw [sub_div, hlevel, hlevel']
        ring
    _ ≤ (3 * n + b.plan.overdraft rate power : Nat) := by
        rw [div_le_iff₀ hone]
        exact_mod_cast hspent

theorem steps_of_table : ∀ b ∈ Band.all, ∀ rate ∈ b.plan.dataRates.map (·.index),
    (b.plan.faster rate).length + b.plan.minTxPowerIndex.toNat ≤ 15 := by
  decide +kernel

end ChannelPlan

variable {frames : List Frame} {b : Band} {current : Settings} {margin : Single} {config : Config}
  {rate : DataRate} {dbm : Int8} {decision : Decision}

theorem Decides.target_eq_reach (h : Decides frames b.plan current margin config rate decision) :
    (decision.target.dataRate, decision.target.txPower) =
      b.plan.reach (min decision.steps 15) current.dataRate current.txPower := by
  have hlisted := ChannelPlan.mem_indices_of_dataRateByIndex h.listed
  rw [← b.plan.reach_min (ChannelPlan.lawful b).indices_ascend
    (ChannelPlan.steps_of_table b b.mem_all _ hlisted), h.dataRate, h.txPower]
  rfl

theorem three_mul_steps_le (hfinite : decision.linkMargin.isFinite = true)
    (hnonneg : 0 ≤ decision.linkMargin.value)
    (hsteps : decision.steps = b.plan.stepsIn decision.linkMargin) :
    ((3 * min decision.steps 15 : Nat) : ℚ) ≤ decision.linkMargin.value := by
  generalize decision.linkMargin = spare at *
  rcases Nat.eq_zero_or_pos (min decision.steps 15) with hnone | hpos
  · rw [hnone]
    simpa using hnonneg
  · cases spare with
    | nan => cases hfinite
    | infinite s => cases hfinite
    | finite s m fits =>
      have hfits : Format.single.Fits (3 * (min decision.steps 15 * Format.single.one)) := by
        rw [← Nat.mul_assoc]
        apply Format.single.fits_mul_one _ (by decide)
        calc 3 * min decision.steps 15 ≤ 3 * 15 := Nat.mul_le_mul_left 3 (Nat.min_le_right _ _)
          _ ≤ 2 ^ Format.single.precision := by decide
      have hfloor : min decision.steps 15 ≤ (Binary.finite s m fits / b.plan.step).floorNat
          (UInt32.size - 1) := by
        rw [ChannelPlan.stepsIn] at hsteps
        split at hsteps <;> omega
      rw [ChannelPlan.step_eq] at hfloor
      obtain ⟨rfl, hle⟩ := Binary.three_mul_le_of_le_floor (by decide) hpos hfits hfloor
      rw [← Nat.mul_assoc] at hle
      rw [Binary.value, le_div_iff₀ (Nat.cast_pos.2 Format.single.one_pos), Binary.signed,
        if_neg Bool.false_ne_true]
      exact_mod_cast hle

/-- What a decision gives away never exceeds its link margin by more than the overdraft. -/
theorem spent_le (hsupported : b.plan.linkAdrSupported = true)
    (hdbm : b.plan.txPowerDbm current.txPower = some dbm)
    (h : Decides frames b.plan current margin config rate decision)
    (hfinite : decision.linkMargin.isFinite = true) (hnonneg : 0 ≤ decision.linkMargin.value) :
    ∃ rate' dbm', b.plan.dataRateByIndex decision.target.dataRate = some rate' ∧
      b.plan.txPowerDbm decision.target.txPower = some dbm' ∧
      (rate'.requiredSnr.value - rate.requiredSnr.value) + (dbm.toInt - dbm'.toInt) ≤
        decision.linkMargin.value + b.plan.overdraft current.dataRate current.txPower := by
  have hpaid := three_mul_steps_le hfinite hnonneg h.steps
  obtain ⟨rate', dbm', hrate', hdbm', hspent⟩ := ChannelPlan.spent_reach_le hsupported h.listed hdbm
    (show min decision.steps 15 < 16 by omega)
  rw [← h.target_eq_reach] at hrate' hdbm'
  refine ⟨rate', dbm', hrate', hdbm', hspent.trans ?_⟩
  rw [Nat.cast_add]
  exact add_le_add_left hpaid _

/-- In decibels and exactly: what is left of the link margin after a decision is not negative, but
for the starts whose first powers are further apart than a step. -/
theorem decide_keeps_reserve (frames : List Frame) (current : Settings) (margin : Single)
    (config : Config) (hsupported : b.plan.linkAdrSupported = true)
    (hrate : b.plan.dataRateByIndex current.dataRate = some rate)
    (hdbm : b.plan.txPowerDbm current.txPower = some dbm)
    (hsnr : Binary.SubExact (Window.maxSnr frames) rate.requiredSnr)
    (hmargin : Binary.SubExact (Window.maxSnr frames - rate.requiredSnr) margin)
    (hspare : 0 ≤ (Window.maxSnr frames).value - rate.requiredSnr.value - margin.value) :
    ((1 ≤ config.maxTransmissions ∧ config.maxTransmissions < 255) →
      ∃ decision, decide frames b.plan current margin config = .ok decision) ∧
    ∀ decision, decide frames b.plan current margin config = .ok decision →
      ∃ rate' dbm', b.plan.dataRateByIndex decision.target.dataRate = some rate' ∧
        b.plan.txPowerDbm decision.target.txPower = some dbm' ∧
        decision.linkMargin.value =
          (Window.maxSnr frames).value - rate.requiredSnr.value - margin.value ∧
        -(b.plan.overdraft current.dataRate current.txPower : ℚ) ≤
          decision.linkMargin.value - (rate'.requiredSnr.value - rate.requiredSnr.value) -
            (dbm.toInt - dbm'.toInt) := by
  constructor
  · rintro ⟨hpos, hlt⟩
    apply (exists_decide_iff hpos hlt).2
    rw [← ChannelPlan.index_of_dataRateByIndex hrate]
    exact List.mem_map_of_mem (List.mem_of_find?_eq_some hrate)
  · intro decision hd
    obtain ⟨r, h⟩ := decides_of_decide hd
    obtain rfl : r = rate := Option.some.inj (h.listed.symm.trans hrate)
    have hvalue : decision.linkMargin.value =
        (Window.maxSnr frames).value - r.requiredSnr.value - margin.value := by
      rw [h.linkMargin, hmargin.2, hsnr.2]
    have hfinite : decision.linkMargin.isFinite = true := by
      rw [h.linkMargin]
      exact hmargin.1
    obtain ⟨rate', dbm', hrate', hdbm', hspent⟩ :=
      spent_le hsupported hdbm h hfinite (by rw [hvalue]; exact hspare)
    exact ⟨rate', dbm', hrate', hdbm', hvalue, by linarith⟩

/-- Of twenty-four decibels the fastest data rate takes twelve and a half and three powers nine. -/
theorem decide_keeps_reserve_slowest : ∃ decision rate' dbm',
    decide [⟨7, .ofNat 19, 1⟩] Band.eu863.plan ⟨0, 1, 1⟩ (.ofNat 15) {} = .ok decision ∧
      Band.eu863.plan.dataRateByIndex decision.target.dataRate = some rate' ∧
      Band.eu863.plan.txPowerDbm decision.target.txPower = some dbm' ∧
      0 ≤ decision.linkMargin.value - (rate'.requiredSnr.value + 20) - (14 - dbm'.toInt) := by
  have hrate : Band.eu863.plan.dataRateByIndex 0 = some (lora 0 "SF12BW125" 12 125) := by
    decide +kernel
  have hdbm : Band.eu863.plan.txPowerDbm 1 = some 14 := by decide +kernel
  have hfloor : (demodulationFloor 12).value = -20 := by decide +kernel
  obtain ⟨hexists, hkept⟩ := decide_keeps_reserve [⟨7, .ofNat 19, 1⟩] ⟨0, 1, 1⟩ (.ofNat 15) {} rfl
    hrate hdbm (by decide +kernel) (by decide +kernel) (by decide +kernel)
  obtain ⟨decision, hd⟩ := hexists ⟨by decide, by decide⟩
  obtain ⟨rate', dbm', hrate', hdbm', -, hleft⟩ := hkept decision hd
  refine ⟨decision, rate', dbm', hd, hrate', hdbm', ?_⟩
  have hoverdraft : Band.eu863.plan.overdraft 0 1 = 0 := rfl
  have hsent : Int8.toInt 14 = 14 := rfl
  simp only [lora, hfloor, hoverdraft, hsent] at hleft
  push_cast at hleft
  linarith

/-- A Korean device at the second power has three decibels to spare, and the one step that they make
takes four. -/
theorem decide_overdraws : ∃ decision rate rate' dbm dbm',
    Band.kr920.plan.linkAdrSupported = true ∧
      Band.kr920.plan.dataRateByIndex 5 = some rate ∧ Band.kr920.plan.txPowerDbm 1 = some dbm ∧
      Binary.SubExact (Window.maxSnr [⟨7, .ofRatio 21 2, 1⟩]) rate.requiredSnr ∧
      Binary.SubExact (Window.maxSnr [⟨7, .ofRatio 21 2, 1⟩] - rate.requiredSnr) (.ofNat 15) ∧
      decide [⟨7, .ofRatio 21 2, 1⟩] Band.kr920.plan ⟨5, 1, 1⟩ (.ofNat 15) {} = .ok decision ∧
      Band.kr920.plan.dataRateByIndex decision.target.dataRate = some rate' ∧
      Band.kr920.plan.txPowerDbm decision.target.txPower = some dbm' ∧
      decision.linkMargin.value = 3 ∧
      decision.linkMargin.value - (rate'.requiredSnr.value - rate.requiredSnr.value) -
        (dbm.toInt - dbm'.toInt) = -1 := by
  refine ⟨⟨⟨5, 1, 1⟩, ⟨5, 2, 1⟩, .ofRatio 21 2, .ofNat 3, 1, 0⟩, lora 5 "SF7BW125" 7 125,
    lora 5 "SF7BW125" 7 125, 14, 10, ?_⟩
  decide +kernel

end AdaptiveRate
