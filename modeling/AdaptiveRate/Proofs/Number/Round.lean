import AdaptiveRate.Number.Format
import Mathlib.Algebra.Order.Field.Rat
import Mathlib.Tactic.FieldSimp
import Mathlib.Tactic.Linarith
import Mathlib.Tactic.Positivity
import Mathlib.Tactic.Ring

namespace AdaptiveRate.Number

variable {num den : Nat}

theorem two_mul_nearest (num : Nat) (hden : 0 < den) : 2 * (nearest num den * den) ≤ 2 * num + den ∧
    2 * num ≤ 2 * (nearest num den * den) + den := by
  have hsplit := Nat.div_add_mod' num den
  have hlt := Nat.mod_lt num hden
  unfold nearest
  split
  · omega
  · rw [Nat.add_mul, Nat.one_mul]
    omega

theorem nearest_eq {r : Nat} (hden : 0 < den) (hlow : 2 * (r * den) ≤ 2 * num + den)
    (hupp : 2 * num ≤ 2 * (r * den) + den)
    (htie : r % 2 = 0 ∨ 2 * (r * den) < 2 * num + den ∧ 2 * num < 2 * (r * den) + den) :
    nearest num den = r := by
  have hsplit := Nat.div_add_mod' num den
  have hlt := Nat.mod_lt num hden
  have hle : r ≤ num / den + 1 := by
    by_contra hgt
    have hmul : (num / den + 2) * den ≤ r * den := Nat.mul_le_mul_right den (by omega)
    rw [Nat.add_mul] at hmul
    omega
  have hge : num / den ≤ r := by
    by_contra hgt
    have hmul : (r + 1) * den ≤ num / den * den := Nat.mul_le_mul_right den (by omega)
    rw [Nat.add_mul] at hmul
    omega
  rcases Nat.lt_or_eq_of_le hle with hlast | rfl
  · obtain rfl : r = num / den := by omega
    unfold nearest
    rw [if_pos]
    omega
  · rw [Nat.add_mul, Nat.one_mul] at hlow hupp htie
    unfold nearest
    rw [if_neg]
    omega

theorem le_nearest (num den : Nat) : num / den ≤ nearest num den := by
  unfold nearest
  split <;> omega

theorem nearest_mono {num' : Nat} (h : num ≤ num') :
    nearest num den ≤ nearest num' den := by
  have hsplit := Nat.div_add_mod' num den
  have hsplit' := Nat.div_add_mod' num' den
  have hdiv : num / den ≤ num' / den := Nat.div_le_div_right h
  rcases Nat.lt_or_eq_of_le hdiv with hlt | heq
  · calc nearest num den ≤ num / den + 1 := nearest_le num den
      _ ≤ num' / den := hlt
      _ ≤ nearest num' den := le_nearest num' den
  · -- With one whole part, the larger remainder is not the one rounded down.
    have hrem : num % den ≤ num' % den := by
      rw [heq] at hsplit
      omega
    unfold nearest
    rw [heq]
    split
    · split <;> omega
    · rw [if_neg (by omega)]

theorem nearest_mul_mul {c : Nat} (hc : 0 < c) : nearest (c * num) (c * den) = nearest num den := by
  have hlt : 2 * (c * (num % den)) < c * den ↔ 2 * (num % den) < den := by
    rw [Nat.mul_left_comm, Nat.mul_lt_mul_left hc]
  have heq : 2 * (c * (num % den)) = c * den ↔ 2 * (num % den) = den := by
    rw [Nat.mul_left_comm, Nat.mul_right_inj hc.ne']
  simp only [nearest, Nat.mul_div_mul_left _ _ hc, Nat.mul_mod_mul_left, hlt, heq]

namespace Format

variable (f : Format)

theorem one_pos : 0 < f.one := Nat.two_pow_pos f.scale

theorem two_pow_le_one {n : Nat} (h : n ≤ f.scale) : 2 ^ n ≤ f.one :=
  Nat.pow_le_pow_right two_pos h

theorem place_mono {n m : Nat} (h : n ≤ m) : f.place n ≤ f.place m := by
  have hpos := f.precision_pos
  apply f.place_le
  refine Nat.lt_of_le_of_lt h (Nat.lt_of_lt_of_le Nat.lt_log2_self ?_)
  exact Nat.pow_le_pow_right (by decide) (by unfold place; omega)

/-- Numbers of the format keep the last place of the lesser one apart. -/
theorem add_ulp_le {n m : Nat} (hn : f.ulp n ∣ n) (hm : f.ulp m ∣ m) (h : n < m) :
    n + f.ulp n ≤ m := by
  have hdvd : f.ulp n ∣ m := (Nat.pow_dvd_pow 2 (f.place_mono h.le)).trans hm
  obtain ⟨a, ha⟩ := hn
  obtain ⟨b, hb⟩ := hdvd
  generalize f.ulp n = u at *
  subst ha hb
  rw [← Nat.mul_succ]
  exact Nat.mul_le_mul_left u (Nat.lt_of_mul_lt_mul_left h)

theorem two_mul_ulp_le_of_place_lt {n m : Nat} (h : f.place n < f.place m) :
    2 * f.ulp n ≤ f.ulp m := by
  calc 2 * 2 ^ f.place n = 2 ^ (f.place n + 1) := (Nat.pow_succ' ..).symm
    _ ≤ 2 ^ f.place m := Nat.pow_le_pow_right (by decide) h

theorem two_mul_ulp_le {n m : Nat} (hnormal : 2 ^ (f.precision - 1) ≤ n) (h : 2 * n ≤ m) :
    2 * f.ulp n ≤ f.ulp m := by
  have hpos := f.precision_pos
  have hn : n ≠ 0 := (Nat.lt_of_lt_of_le (Nat.two_pow_pos _) hnormal).ne'
  have hlog : f.precision - 1 ≤ n.log2 := (Nat.le_log2 hn).2 hnormal
  have hlog' : n.log2 + 1 ≤ m.log2 := by
    rw [Nat.le_log2 (by omega), Nat.pow_succ']
    exact (Nat.mul_le_mul_left 2 (Nat.log2_self_le hn)).trans h
  apply f.two_mul_ulp_le_of_place_lt
  unfold place
  omega

/-- Between two powers of two all magnitudes have the same last place, and below the normal range
they have the last place of all. -/
theorem ulp_eq {n k : Nat} (hlow : k = 0 ∨ 2 ^ (f.precision + k) ≤ 2 * n)
    (hupp : n < 2 ^ (f.precision + k)) : f.ulp n = 2 ^ k := by
  have hpos := f.precision_pos
  suffices f.place n = k by
    rw [ulp, this]
    rfl
  have hle : f.place n ≤ k := f.place_le hupp
  rcases hlow with rfl | hlow
  · omega
  · have hn : n ≠ 0 := by
      rintro rfl
      exact absurd hlow (Nat.not_le.2 (Nat.two_pow_pos _))
    have hlog : f.precision + k - 1 ≤ n.log2 := by
      apply (Nat.le_log2 hn).2
      obtain ⟨p, hp⟩ : ∃ p, f.precision + k = p + 1 := ⟨f.precision + k - 1, by omega⟩
      rw [hp, Nat.pow_succ] at hlow
      rw [hp, Nat.add_sub_cancel]
      omega
    unfold place at hle ⊢
    omega

theorem ulp_mul_le {n : Nat} (h : 2 ^ (f.precision - 1) ≤ n) :
    f.ulp n * 2 ^ (f.precision - 1) ≤ n := by
  have hpos := f.precision_pos
  have hn : n ≠ 0 := by
    rintro rfl
    exact absurd h (Nat.not_le.2 (Nat.two_pow_pos _))
  have hlog : f.precision - 1 ≤ n.log2 := (Nat.le_log2 hn).2 h
  have hsum : f.place n + (f.precision - 1) = n.log2 := by
    unfold place
    omega
  calc f.ulp n * 2 ^ (f.precision - 1)
    _ = 2 ^ (f.place n + (f.precision - 1)) := (Nat.pow_add ..).symm
    _ = 2 ^ n.log2 := by rw [hsum]
    _ ≤ n := Nat.log2_self_le hn

theorem exists_place {n : Nat} (hn : f.Fits n) : ∃ r k, n = r * 2 ^ k ∧ f.ulp (r * 2 ^ k) = 2 ^ k ∧
    r < 2 ^ f.precision ∧ (k = 0 ∨ 2 ^ f.precision ≤ 2 * r ∧ f.precision + k ≤ f.width) := by
  obtain ⟨⟨r, hr⟩, hlt⟩ := hn
  have hulp : f.ulp n = 2 ^ f.place n := rfl
  rw [Nat.mul_comm] at hr
  refine ⟨r, f.place n, hr, by rw [← hulp, ← hr], ?_, ?_⟩
  · apply Nat.lt_of_mul_lt_mul_right
    exact hr.symm.trans_lt (f.lt_mul_ulp n)
  · rcases Nat.eq_zero_or_pos (f.place n) with hplace | hplace
    · exact .inl hplace
    · have hne : n ≠ 0 := by
        rintro rfl
        exact absurd hplace (by rw [place_zero]; exact Nat.lt_irrefl 0)
      have hlog := (Nat.log2_lt hne).2 hlt
      unfold place at hplace ⊢
      have hnormal : 2 ^ (f.precision - 1) ≤ n :=
        (Nat.pow_le_pow_right two_pos (by omega)).trans (Nat.log2_self_le hne)
      have hhalf : 2 ^ (f.precision - 1) ≤ r := by
        apply Nat.le_of_mul_le_mul_right _ (f.ulp_pos n)
        rw [Nat.mul_comm]
        exact (f.ulp_mul_le hnormal).trans_eq hr
      refine .inr ⟨?_, by omega⟩
      calc 2 ^ f.precision = 2 * 2 ^ (f.precision - 1) := by
            rw [← Nat.pow_succ', Nat.succ_eq_add_one, Nat.sub_add_cancel f.precision_pos]
        _ ≤ 2 * r := Nat.mul_le_mul_left 2 hhalf

theorem round_mul {n : Nat} (hden : 0 < den) (h : f.ulp n ∣ n) : f.round (n * den) den = n := by
  obtain ⟨r, hr⟩ := h
  have hulp := f.ulp_pos n
  have hdiv : n * den / den = n := Nat.mul_div_cancel n hden
  have hnum : n * den = r * (den * f.ulp n) := by
    conv_lhs => rw [hr]
    ring
  have hnearest : nearest (n * den) (den * f.ulp n) = r := by
    apply nearest_eq (Nat.mul_pos hden hulp)
    · rw [hnum]
      exact Nat.le_add_right _ _
    · rw [hnum]
      exact Nat.le_add_right _ _
    · rw [hnum]
      have hpos := Nat.mul_pos hden hulp
      omega
  rw [round, hdiv, hnearest, Nat.mul_comm]
  exact hr.symm

theorem round_two_pow (hden : 0 < den) (k : Nat) : f.round (2 ^ k * den) den = 2 ^ k := by
  have hdvd : f.ulp (1 * 2 ^ k) ∣ 1 * 2 ^ k := f.ulp_dvd (Nat.one_le_two_pow (n := f.precision))
  rw [Nat.one_mul] at hdvd
  exact f.round_mul hden hdvd

@[simp] theorem round_zero_left (den : Nat) : f.round 0 den = 0 := by
  have hnearest : ∀ d, nearest 0 d = 0 := by
    intro d
    unfold nearest
    rw [Nat.zero_mod, Nat.zero_div, if_pos (by omega)]
  rw [round, hnearest, Nat.zero_mul]

theorem round_mul_mul {c : Nat} (hc : 0 < c) : f.round (c * num) (c * den) = f.round num den := by
  rw [round, round, Nat.mul_div_mul_left _ _ hc, Nat.mul_assoc, nearest_mul_mul hc]

theorem round_le_ulp_mul (num den : Nat) :
    f.round num den ≤ 2 ^ f.precision * f.ulp (num / den) :=
  Nat.mul_le_mul_right _ (f.nearest_ulp_le num den)

/-- Above the finest place a quotient uses the leading digit. -/
theorem ulp_mul_le_round (h : 0 < f.place (num / den)) :
    2 ^ (f.precision - 1) * f.ulp (num / den) ≤ f.round num den := by
  have hne : num / den ≠ 0 := by
    intro hzero
    rw [hzero, place_zero] at h
    exact Nat.lt_irrefl 0 h
  have hnormal : 2 ^ (f.precision - 1) ≤ num / den := by
    refine (Nat.pow_le_pow_right (by decide) ?_).trans (Nat.log2_self_le hne)
    unfold place at h
    omega
  apply Nat.mul_le_mul_right
  calc 2 ^ (f.precision - 1) ≤ num / den / f.ulp (num / den) := by
        rw [Nat.le_div_iff_mul_le (f.ulp_pos _), Nat.mul_comm]
        exact f.ulp_mul_le hnormal
    _ = num / (den * f.ulp (num / den)) := Nat.div_div_eq_div_mul ..
    _ ≤ nearest num (den * f.ulp (num / den)) := le_nearest _ _

theorem round_mono {num' : Nat} (h : num ≤ num') :
    f.round num den ≤ f.round num' den := by
  have hplace : f.place (num / den) ≤ f.place (num' / den) :=
    f.place_mono (Nat.div_le_div_right h)
  rcases Nat.lt_or_eq_of_le hplace with hfiner | heq
  · -- The larger quotient is past the power of two that bounds the smaller one.
    have hbound : 2 ^ f.precision = 2 ^ (f.precision - 1) * 2 := by
      rw [← Nat.pow_succ, Nat.succ_eq_add_one, Nat.sub_add_cancel f.precision_pos]
    calc f.round num den ≤ 2 ^ f.precision * f.ulp (num / den) := f.round_le_ulp_mul num den
      _ = 2 ^ (f.precision - 1) * (2 * f.ulp (num / den)) := by rw [hbound, Nat.mul_assoc]
      _ ≤ 2 ^ (f.precision - 1) * f.ulp (num' / den) :=
          Nat.mul_le_mul_left _ (f.two_mul_ulp_le_of_place_lt hfiner)
      _ ≤ f.round num' den := f.ulp_mul_le_round (Nat.zero_lt_of_lt hfiner)
  · have hsame : f.ulp (num / den) = f.ulp (num' / den) := by rw [ulp, ulp, heq]
    rw [round, round, hsame]
    exact Nat.mul_le_mul_right _ (nearest_mono h)

theorem round_le_round {num' den' : Nat} (hden : 0 < den) (hden' : 0 < den')
    (h : num * den' ≤ num' * den) : f.round num den ≤ f.round num' den' := by
  calc f.round num den = f.round (den' * num) (den' * den) := (f.round_mul_mul hden').symm
    _ ≤ f.round (den * num') (den' * den) := by
        apply f.round_mono
        rwa [Nat.mul_comm den', Nat.mul_comm den]
    _ = f.round num' den' := by rw [Nat.mul_comm den' den, f.round_mul_mul hden]

theorem round_congr {num' den' : Nat} (hden : 0 < den) (hden' : 0 < den')
    (h : num * den' = num' * den) : f.round num den = f.round num' den' :=
  Nat.le_antisymm (f.round_le_round hden hden' h.le) (f.round_le_round hden' hden h.ge)

/-- A quotient at most half a place away from a magnitude is rounded to it, if the place is even or
the quotient is nearer than that. The place is that of the quotient. -/
theorem round_eq_of_place {r k : Nat} (hden : 0 < den)
    (hplace : k = 0 ∨ 2 ^ f.precision * (den * 2 ^ k) ≤ 2 * num)
    (hlt : num < 2 ^ f.precision * (den * 2 ^ k))
    (hlow : 2 * (r * (den * 2 ^ k)) ≤ 2 * num + den * 2 ^ k)
    (hupp : 2 * num ≤ 2 * (r * (den * 2 ^ k)) + den * 2 ^ k)
    (htie : r % 2 = 0 ∨ 2 * (r * (den * 2 ^ k)) < 2 * num + den * 2 ^ k ∧
      2 * num < 2 * (r * (den * 2 ^ k)) + den * 2 ^ k) :
    f.round num den = r * 2 ^ k := by
  have hpos : 0 < den * 2 ^ k := Nat.mul_pos hden (Nat.two_pow_pos k)
  have hpow : 2 ^ (f.precision + k) * den = 2 ^ f.precision * (den * 2 ^ k) := by
    rw [Nat.pow_add]
    ring
  have hulp : f.ulp (num / den) = 2 ^ k := by
    apply f.ulp_eq
    · rcases hplace with rfl | hplace
      · exact .inl rfl
      · obtain ⟨half, hhalf⟩ : ∃ half, 2 ^ (f.precision + k) = 2 * half :=
          dvd_pow_self 2 (by have := f.precision_pos; omega)
        rw [← hpow, hhalf, Nat.mul_assoc] at hplace
        have hle : half ≤ num / den := (Nat.le_div_iff_mul_le hden).2 (by omega)
        rw [hhalf]
        exact .inr (Nat.mul_le_mul_left 2 hle)
    · rwa [Nat.div_lt_iff_lt_mul hden, hpow]
  rw [round, hulp, nearest_eq hpos hlow hupp htie]

/-- Powers of two are left out, since the places below them are finer. -/
theorem round_eq {r k : Nat} (hden : 0 < den) (hr : r < 2 ^ f.precision)
    (hk : k = 0 ∨ 2 ^ f.precision < 2 * r) (hlow : 2 * (r * (den * 2 ^ k)) ≤ 2 * num + den * 2 ^ k)
    (hupp : 2 * num ≤ 2 * (r * (den * 2 ^ k)) + den * 2 ^ k)
    (htie : r % 2 = 0 ∨ 2 * (r * (den * 2 ^ k)) < 2 * num + den * 2 ^ k ∧
      2 * num < 2 * (r * (den * 2 ^ k)) + den * 2 ^ k) :
    f.round num den = r * 2 ^ k := by
  have hpos : 0 < den * 2 ^ k := Nat.mul_pos hden (Nat.two_pow_pos k)
  refine f.round_eq_of_place hden (hk.imp_right fun hlarge ↦ ?_) ?_ hlow hupp htie
  · have hmul : (2 ^ f.precision + 1) * (den * 2 ^ k) ≤ 2 * r * (den * 2 ^ k) :=
      Nat.mul_le_mul_right _ hlarge
    rw [Nat.add_mul, Nat.one_mul, Nat.mul_assoc] at hmul
    omega
  · have hmul : (r + 1) * (den * 2 ^ k) ≤ 2 ^ f.precision * (den * 2 ^ k) :=
      Nat.mul_le_mul_right _ hr
    rw [Nat.add_mul, Nat.one_mul] at hmul
    omega

/-- The rounded third of a number stays below a number whose triple the format holds. -/
theorem round_three_lt {n m : Nat} (hn : f.ulp n ∣ n) (hm : f.ulp (3 * m) ∣ 3 * m)
    (h : n < 3 * m) (hnormal : 2 ^ (f.precision - 1) < m) : f.round n 3 < m := by
  rcases Nat.lt_or_ge (n / 3) (2 ^ (f.precision - 1)) with hsmall | hlarge
  · calc f.round n 3 ≤ f.round (2 ^ (f.precision - 1) * 3) 3 := f.round_mono (by omega)
      _ = 2 ^ (f.precision - 1) := f.round_two_pow three_pos _
      _ < m := hnormal
  · -- The number is two of its last places from the triple, its third one and a half.
    by_contra hge
    have hulp := f.ulp_pos (n / 3)
    have hround : m ≤ nearest n (3 * f.ulp (n / 3)) * f.ulp (n / 3) := not_lt.1 hge
    have hnear := (two_mul_nearest n (Nat.mul_pos three_pos hulp)).1
    have hapart := f.add_ulp_le hn hm h
    have hcoarser := f.two_mul_ulp_le hlarge (m := n) (by omega)
    linarith

theorem abs_round_sub_le (hden : 0 < den) (h : 2 ^ (f.precision - 1) * den ≤ num) :
    |(f.round num den : ℚ) - num / den| ≤ num / den / 2 ^ f.precision := by
  have hulp := f.ulp_pos (num / den)
  have hpos := f.precision_pos
  obtain ⟨hlow, hupp⟩ := two_mul_nearest num (Nat.mul_pos hden hulp)
  have hplace : f.ulp (num / den) * 2 ^ (f.precision - 1) * den ≤ num := by
    apply (Nat.le_div_iff_mul_le hden).1
    exact f.ulp_mul_le ((Nat.le_div_iff_mul_le hden).2 h)
  have hround : nearest num (den * f.ulp (num / den)) * (den * f.ulp (num / den)) =
      f.round num den * den := by
    rw [round]
    ring
  rw [hround] at hlow hupp
  have hpow : (2 : ℚ) ^ f.precision = 2 * 2 ^ (f.precision - 1) := by
    rw [← pow_succ', Nat.sub_add_cancel hpos]
  have hden' : (0 : ℚ) < den := by exact_mod_cast hden
  have hlow' : (2 * (f.round num den * den) : ℚ) ≤ 2 * num + den * f.ulp (num / den) := by
    exact_mod_cast hlow
  have hupp' : (2 * num : ℚ) ≤ 2 * (f.round num den * den) + den * f.ulp (num / den) := by
    exact_mod_cast hupp
  have hplace' : (f.ulp (num / den) * 2 ^ (f.precision - 1) * den : ℚ) ≤ num := by
    exact_mod_cast hplace
  -- Half a last place is the error, and it is a small part of a normal quotient.
  have hpart : (den * f.ulp (num / den) : ℚ) ≤ num / 2 ^ (f.precision - 1) := by
    rw [le_div_iff₀ (by positivity)]
    linarith
  have hhalf : (num : ℚ) / 2 ^ f.precision = num / 2 ^ (f.precision - 1) / 2 := by
    rw [hpow]
    field_simp
  have hscaled : |(f.round num den * den : ℚ) - num| ≤ num / 2 ^ f.precision := by
    rw [abs_le, hhalf]
    constructor <;> linarith
  calc |(f.round num den : ℚ) - num / den|
      = |(f.round num den * den : ℚ) - num| / den := by
        rw [← abs_of_pos hden', ← abs_div, abs_of_pos hden', sub_div, mul_div_cancel_right₀]
        exact hden'.ne'
    _ ≤ num / 2 ^ f.precision / den := by gcongr
    _ = num / den / 2 ^ f.precision := div_right_comm _ _ _

end Format

end AdaptiveRate.Number
