import AdaptiveRate.Proofs.Reserve

namespace AdaptiveRate

open AdaptiveRate.Number

namespace Number

/-- Three times a whole number fits up to the first multiple past the precision, which is even. -/
theorem Format.fits_three_mul {k : Nat} (h : k ≤ 2 ^ 24 / 3 + 1) :
    single.Fits (3 * (k * single.one)) := by
  rcases Nat.lt_or_eq_of_le h with hlt | rfl
  · rw [← Nat.mul_assoc]
    refine single.fits_mul_one ?_ (by decide)
    change 3 * k ≤ 2 ^ 24
    omega
  · decide +kernel

namespace Binary

variable {f : Format} {m k : Nat} {fits : f.Fits m} {fits' : f.Fits (3 * f.one)}

theorem le_floor_of_three_mul_le {top : Nat} (htop : k ≤ top) (hk : f.Fits (k * f.one))
    (h : 3 * (k * f.one) ≤ m) :
    k ≤ (finite false m fits / finite false (3 * f.one) fits').floorNat top := by
  have hwhole : k * f.one ≤ f.round m 3 := by
    calc k * f.one = f.round (k * f.one * 3) 3 := (f.round_mul three_pos hk.1).symm
      _ ≤ f.round m 3 := f.round_mono (by omega)
  rw [floorNat_div_three]
  exact Nat.le_min.2 ⟨htop, (Nat.le_div_iff_mul_le f.one_pos).2 hwhole⟩

theorem exists_units_of_value_pos {a : Binary f} (h : 0 < a.value) :
    ∃ m fits, a = finite false m fits ∧ 0 < m ∧ a.value = m / f.one := by
  cases a with
  | nan => exact absurd h (lt_irrefl 0)
  | infinite s => exact absurd h (lt_irrefl 0)
  | finite s m fits =>
    cases s with
    | true =>
      have hneg : (finite true m fits).value ≤ 0 := by
        simp only [value, signed, if_true]
        rw [Int.cast_neg, Int.cast_natCast, neg_div]
        exact neg_nonpos_of_nonneg (by positivity)
      exact absurd h (not_lt.2 hneg)
    | false =>
      refine ⟨m, fits, rfl, ?_, rfl⟩
      by_contra hzero
      obtain rfl := Nat.eq_zero_of_not_pos hzero
      simp [value, signed] at h

end Binary

end Number

namespace ChannelPlan

variable {b : Band} {m : Nat} {fits : Format.single.Fits m}

theorem stepsIn_finite (hpos : 0 < m) : b.plan.stepsIn (.finite false m fits) =
    (Binary.finite false m fits / Binary.finite false (3 * Format.single.one) fits_step).floorNat
      (UInt32.size - 1) := by
  have hlt : (Binary.zero false : Single).lt (.finite false m fits) = true := by
    have hrank : (Binary.finite false m fits : Single).rank = some (m : Int) := rfl
    simp only [Binary.lt, Binary.rank_zero, hrank, decide_eq_true_eq]
    exact Int.natCast_pos.2 hpos
  rw [stepsIn, if_pos hlt, step_eq]

/-- The steps in a margin below the precision are its whole thirds. -/
theorem stepsIn_bounds (b : Band) (fits : Format.single.Fits m) (hpos : 0 < m)
    (hlt : m < 2 ^ 24 * Format.single.one) :
    3 * (b.plan.stepsIn (.finite false m fits) * Format.single.one) ≤ m ∧
      m < 3 * ((b.plan.stepsIn (.finite false m fits) + 1) * Format.single.one) := by
  have hone := Format.single.one_pos
  generalize hn : b.plan.stepsIn (.finite false m fits) = n
  rw [stepsIn_finite hpos] at hn
  have hfits : ∀ k ≤ n, k ≤ 2 ^ 24 / 3 + 1 → 3 * (k * Format.single.one) ≤ m := by
    intro k hkn hk
    rcases Nat.eq_zero_or_pos k with rfl | hkpos
    · omega
    · rw [← hn] at hkn
      exact (Binary.three_mul_le_of_le_floor (by decide) hkpos (Format.fits_three_mul hk) hkn).2
  -- One step past the precision would be too much, so there are no more than that.
  have hfew : n ≤ 2 ^ 24 / 3 := by
    by_contra hmany
    have hover := hfits (2 ^ 24 / 3 + 1) (not_le.1 hmany) le_rfl
    omega
  refine ⟨hfits n le_rfl (by omega), ?_⟩
  by_contra hmore
  have hnext : Format.single.Fits ((n + 1) * Format.single.one) :=
    Format.single.fits_mul_one (by change n + 1 ≤ 2 ^ 24; omega) (by decide)
  have htop : n + 1 ≤ UInt32.size - 1 := by
    have hsize : UInt32.size = 2 ^ 32 := rfl
    omega
  have hcounted : n + 1 ≤ n := by
    rw [← hn] at htop hnext hmore ⊢
    exact Binary.le_floor_of_three_mul_le htop hnext (not_lt.1 hmore)
  exact absurd hcounted (Nat.not_succ_le_self n)

end ChannelPlan

variable {frames : List Frame} {b : Band} {current : Settings} {margin : Single} {config : Config}
  {decision : Decision}

theorem ChannelPlan.stepsIn_eq_zero (p : ChannelPlan) {spare : Single}
    (h : spare.isNan = true ∨ spare ≤ .zero false) : p.stepsIn spare = 0 := by
  have hlt : (Binary.zero false : Single).lt spare = false := by
    rcases h with hnan | ⟨x, y, hx, hy, hxy⟩
    · cases spare with
      | nan => simp [Binary.lt, Binary.rank]
      | infinite s => cases hnan
      | finite s m fits => cases hnan
    · cases (Binary.rank_zero false).symm.trans hy
      simpa only [Binary.lt, Binary.rank_zero, hx, decide_eq_false_iff_not, not_lt] using hxy
  simp [stepsIn, hlt]

/-- The steps are the whole thirds of the link margin, and none if there is nothing to spare. -/
theorem decide_whole_steps (h : decide frames b.plan current margin config = .ok decision) :
    (0 < decision.linkMargin.value → decision.linkMargin.value < 2 ^ 24 →
      3 * (decision.steps : ℚ) ≤ decision.linkMargin.value ∧
        decision.linkMargin.value < 3 * (decision.steps + 1)) ∧
    (decision.linkMargin.isNan = true ∨ decision.linkMargin ≤ .zero false →
      decision.steps = 0) := by
  obtain ⟨rate, hdecides⟩ := decides_of_decide h
  have hone : (0 : ℚ) < Format.single.one := Nat.cast_pos.2 Format.single.one_pos
  refine ⟨fun hpos hlt ↦ ?_, fun hnone ↦ ?_⟩
  · obtain ⟨m, fits, hmargin, hm, hvalue⟩ := Binary.exists_units_of_value_pos hpos
    rw [hvalue, div_lt_iff₀ hone] at hlt
    have hunits : m < 2 ^ 24 * Format.single.one := by exact_mod_cast hlt
    obtain ⟨hlow, hupp⟩ := ChannelPlan.stepsIn_bounds b fits hm hunits
    rw [← hmargin, ← hdecides.steps] at hlow hupp
    rw [hvalue, le_div_iff₀ hone, div_lt_iff₀ hone, mul_assoc, mul_assoc]
    exact ⟨by exact_mod_cast hlow, by exact_mod_cast hupp⟩
  · rw [hdecides.steps]
    exact b.plan.stepsIn_eq_zero hnone

/-- The last margin below six decibels pays for one step of three and not for two. -/
theorem decide_whole_steps_below_six : ∃ decision,
    decide [⟨7, .ofRatio (-(3 * 2 ^ 20 + 1)) (2 ^ 21), 1⟩] Band.eu863.plan ⟨5, 0, 1⟩
        (.zero false) {} = .ok decision ∧
      decision.linkMargin.value = 6 - 1 / 2 ^ 21 ∧ decision.steps = 1 := by
  obtain ⟨decision, hd, hvalue⟩ : ∃ decision,
      decide [⟨7, .ofRatio (-(3 * 2 ^ 20 + 1)) (2 ^ 21), 1⟩] Band.eu863.plan ⟨5, 0, 1⟩ (.zero false)
          {} = .ok decision ∧ decision.linkMargin.value = 6 - 1 / 2 ^ 21 := by
    refine ⟨⟨⟨5, 0, 1⟩, ⟨5, 1, 1⟩, .ofRatio (-(3 * 2 ^ 20 + 1)) (2 ^ 21),
      .ofRatio (3 * 2 ^ 22 - 1) (2 ^ 21), 1, 0⟩, ?_⟩
    decide +kernel
  obtain ⟨hlow, hupp⟩ := (decide_whole_steps hd).1 (by rw [hvalue]; norm_num)
    (by rw [hvalue]; norm_num)
  refine ⟨decision, hd, hvalue, ?_⟩
  rw [hvalue] at hlow hupp
  have hmost : (decision.steps : ℚ) < 2 := by linarith
  have hleast : (0 : ℚ) < decision.steps := by linarith
  have hmost' : decision.steps < 2 := by exact_mod_cast hmost
  have hleast' : 0 < decision.steps := by exact_mod_cast hleast
  omega

end AdaptiveRate
