import AdaptiveRate.Json.Numeral
import AdaptiveRate.Proofs.Number.Exact

namespace AdaptiveRate.Number

/-- A number is another one up to a part of it. -/
def Near (part x d : ℚ) : Prop := |x - d| ≤ part * d

section Near

variable {u x y a d : ℚ}

theorem Near.mul (h : Near u x d) (ha : 0 ≤ a) : Near u (a * x) (a * d) := by
  have hscaled := mul_le_mul_of_nonneg_left h ha
  rw [Near, ← mul_sub, abs_mul, abs_of_nonneg ha]
  linarith

theorem Near.div (h : Near u x d) (ha : 0 ≤ a) (hd : 0 < d) (hx : 0 < x) (hu : u ≤ 1 / 2) :
    Near (2 * u) (a / x) (a / d) := by
  have hhalf : d ≤ 2 * x := by
    have hlow := (abs_le.1 h).1
    have hpart := mul_le_mul_of_nonneg_right hu hd.le
    linarith
  have hsub : a / x - a / d = a / d * ((d - x) / x) := by
    field_simp
  rw [Near, hsub, abs_mul, abs_of_nonneg (by positivity), abs_div, abs_of_pos hx, abs_sub_comm,
    mul_comm (2 * u)]
  apply mul_le_mul_of_nonneg_left _ (by positivity)
  rw [div_le_iff₀ hx]
  have hu0 : 0 ≤ u := nonneg_of_mul_nonneg_left ((abs_nonneg _).trans h) hd
  have := mul_le_mul_of_nonneg_left hhalf hu0
  exact h.trans (by linarith)

theorem Near.trans (h : Near u x y) (h' : Near (2 * u) y d) (hu : 0 ≤ u) (hhalf : u ≤ 1 / 2)
    (hd : 0 ≤ d) : Near (4 * u) x d := by
  have hy : y ≤ 2 * d := by
    have hupp := (abs_le.1 h').2
    have := mul_le_mul_of_nonneg_right hhalf hd
    linarith
  have hpart := mul_le_mul_of_nonneg_left hy hu
  calc |x - d| = |(x - y) + (y - d)| := by rw [sub_add_sub_cancel]
    _ ≤ |x - y| + |y - d| := abs_add_le _ _
    _ ≤ u * y + 2 * u * d := add_le_add h h'
    _ ≤ 4 * u * d := by linarith

end Near

namespace Format

variable (f : Format) {num den v n t : Nat}

def part : ℚ := 1 / 2 ^ f.precision

theorem part_nonneg : 0 ≤ f.part := by
  unfold part
  positivity

theorem part_le : f.part ≤ 1 / 2 := by
  rw [part]
  apply one_div_le_one_div_of_le two_pos
  exact_mod_cast Nat.le_self_pow f.precision_pos.ne' 2

theorem near_round (hden : 0 < den) (h : 2 ^ (f.precision - 1) * den ≤ num) :
    Near f.part (f.round num den) (num / den) := by
  have herror := f.abs_round_sub_le hden h
  rwa [Near, part, one_div_mul_eq_div]

theorem near_product (ht : Near f.part t (n * f.one)) (hv : 0 < v)
    (hnormal : 2 ^ (f.precision - 1) ≤ t) :
    Near (4 * f.part) (f.round (v * f.one * t) f.one) (v * n * f.one) := by
  have hround : f.round (v * f.one * t) f.one = f.round (v * t) 1 := by
    apply f.round_congr f.one_pos Nat.one_pos
    ring
  have hproduct : Near f.part (f.round (v * t) 1) ((v * t : ℕ) / (1 : ℕ)) :=
    f.near_round Nat.one_pos (by
      rw [Nat.mul_one]
      exact hnormal.trans (Nat.le_mul_of_pos_left t hv))
  have hexact : Near (2 * f.part) ((v * t : ℕ) / (1 : ℕ)) (v * n * f.one) := by
    have hscaled := ht.mul v.cast_nonneg
    rw [Nat.cast_one, div_one, Nat.cast_mul, mul_assoc]
    refine le_trans hscaled ?_
    have hnonneg : (0 : ℚ) ≤ v * (n * f.one) := by positivity
    have := mul_nonneg f.part_nonneg hnonneg
    linarith
  rw [hround]
  exact hproduct.trans hexact f.part_nonneg f.part_le (by positivity)

theorem near_quotient (ht : Near f.part t (n * f.one)) (hn : 0 < n) (htpos : 0 < t)
    (hnormal : 2 ^ (f.precision - 1) * t ≤ v * f.one * f.one) :
    Near (4 * f.part) (f.round (v * f.one * f.one) t) (v / n * f.one) := by
  have hone : (0 : ℚ) < f.one := Nat.cast_pos.2 f.one_pos
  have hn : (0 : ℚ) < n := Nat.cast_pos.2 hn
  have hexact : Near (2 * f.part) ((v * f.one * f.one : ℕ) / t) (v / n * f.one) := by
    have hquot := ht.div (Nat.cast_nonneg (v * f.one * f.one)) (by positivity)
      (Nat.cast_pos.2 htpos) f.part_le
    have hcancel : ((v * f.one * f.one : ℕ) : ℚ) / (n * f.one) = v / n * f.one := by
      push_cast
      field_simp
    rwa [hcancel] at hquot
  exact (f.near_round htpos hnormal).trans hexact f.part_nonneg f.part_le (by positivity)

structure IsTen (n t : Nat) : Prop where
  one_le : f.one ≤ t
  le_two_mul : t ≤ 2 * (10 ^ n * f.one)
  near : Near f.part t ((10 ^ n : Nat) * f.one)
  exact : 10 ^ n ≤ 2 ^ f.precision → t = 10 ^ n * f.one

theorem isTen_round (hscale : f.precision - 1 ≤ f.scale) (hwidth : f.precision + f.scale < f.width)
    (n : Nat) : f.IsTen n (f.round (10 ^ n * f.one) 1) := by
  have hle : f.one * 1 ≤ 10 ^ n * f.one := by
    rw [Nat.mul_one]
    exact Nat.le_mul_of_pos_left _ (Nat.pow_pos (by decide))
  have hnear : Near f.part (f.round (10 ^ n * f.one) 1) ((10 ^ n : Nat) * f.one) := by
    have hround := f.near_round Nat.one_pos
      ((Nat.mul_le_mul_right 1 (f.two_pow_le_one hscale)).trans hle)
    rwa [Nat.cast_one, div_one, Nat.cast_mul] at hround
  refine ⟨?_, ?_, hnear, ?_⟩
  · calc f.one = f.round (f.one * 1) 1 := (f.round_two_pow Nat.one_pos f.scale).symm
      _ ≤ f.round (10 ^ n * f.one) 1 := f.round_mono hle
  · have hupp := (abs_le.1 hnear).2
    have hpart := mul_le_mul_of_nonneg_right f.part_le
      (show (0 : ℚ) ≤ (10 ^ n : Nat) * f.one by positivity)
    have hcast : (f.round (10 ^ n * f.one) 1 : ℚ) ≤ 2 * ((10 ^ n : Nat) * f.one) := by linarith
    exact_mod_cast hcast
  · intro hexact
    have hfits := f.fits_mul_one hexact hwidth
    simpa using f.round_mul Nat.one_pos hfits.1

theorem round_tens_le {k : Nat} (hn : n ≤ k) :
    f.round (tens n * f.one) 1 ≤ f.round (tens k * f.one) 1 :=
  f.round_mono (Nat.mul_le_mul_right _ (Nat.pow_le_pow_right (by decide) hn))

variable {f}

theorem IsTen.round_product_le {m k : Nat} (ht : f.IsTen n t) (hv : v ≤ m) (hn : n ≤ k) :
    f.round (v * f.one * t) f.one ≤ f.round (m * f.one * (2 * (10 ^ k * f.one))) f.one := by
  apply f.round_mono
  have hpow : 10 ^ n ≤ 10 ^ k := Nat.pow_le_pow_right (by decide) hn
  exact Nat.mul_le_mul (Nat.mul_le_mul_right _ hv)
    (ht.le_two_mul.trans (Nat.mul_le_mul_left 2 (Nat.mul_le_mul_right _ hpow)))

theorem IsTen.round_quotient_le (ht : f.IsTen n t) (hv : f.ulp (v * f.one) ∣ v * f.one) :
    f.round (v * f.one * f.one) t ≤ v * f.one := by
  calc f.round (v * f.one * f.one) t ≤ f.round (v * f.one * t) t :=
        f.round_mono (Nat.mul_le_mul_left _ ht.one_le)
    _ = v * f.one := f.round_mul (f.one_pos.trans_le ht.one_le) hv

theorem IsTen.normal_quotient (ht : f.IsTen n t) (hv : 0 < v)
    (hrange : 2 ^ (f.precision - 1) * (2 * 10 ^ n) ≤ f.one) :
    2 ^ (f.precision - 1) * t ≤ v * f.one * f.one := by
  calc 2 ^ (f.precision - 1) * t ≤ 2 ^ (f.precision - 1) * (2 * (10 ^ n * f.one)) :=
        Nat.mul_le_mul_left _ ht.le_two_mul
    _ = 2 ^ (f.precision - 1) * (2 * 10 ^ n) * f.one := by ring
    _ ≤ v * f.one * f.one :=
        Nat.mul_le_mul_right _ (hrange.trans (Nat.le_mul_of_pos_left _ hv))

end Format

end AdaptiveRate.Number

namespace AdaptiveRate.Json.Numeral

open AdaptiveRate.Number

theorem ten_eq {n : Nat} (hn : n ≤ 308) :
    ∃ t fits, ten n = .finite false t fits ∧ Format.double.IsTen n t := by
  have htop : Format.double.round (tens 308 * Format.double.one) 1 < Format.double.limit := by
    decide +kernel
  have hlimit := (Format.double.round_tens_le hn).trans_lt htop
  refine ⟨_, Format.double.fits_round hlimit, ?_,
    Format.double.isTen_round (by decide) (by decide) n⟩
  rw [ten, Binary.ofNat_eq_quotient]
  exact Binary.quotient_eq_finite hlimit

theorem ofNat_eq_of_lt {v : Nat} (hlt : v < 10 ^ 14) : ∃ fits : Format.double.Fits _,
    (.ofNat v : Double) = .finite false (v * Format.double.one) fits := by
  have hle : v ≤ 2 ^ 53 := hlt.le.trans (by decide)
  exact ⟨_, Binary.ofNat_eq (Format.double.fits_mul_one hle (by decide))⟩

/-- A magnitude that stands for a whole number times a power of ten. -/
structure Scales (v : Nat) (e : Int) (y : Nat) : Prop where
  near : Near (4 * Format.double.part) y (v * 10 ^ e * Format.double.one)
  exact : 10 ^ e.natAbs ≤ 2 ^ 53 → ∀ z, Format.double.ulp z ∣ z →
    (z : ℚ) = v * 10 ^ e * Format.double.one → y = z

theorem scaled_ofNat {v e : Nat} (hv : 0 < v) (hlt : v < 10 ^ 14) (he : e ≤ 38) :
    ∃ y fits, scaled v (.ofNat e) = some (.finite false y fits) ∧ Scales v (.ofNat e) y := by
  obtain ⟨t, hfits, hten, ht⟩ := ten_eq (show e ≤ 308 by omega)
  obtain ⟨hvfits, hwhole⟩ := ofNat_eq_of_lt hlt
  have htop : Format.double.round (10 ^ 14 * Format.double.one *
      (2 * (10 ^ 38 * Format.double.one))) Format.double.one < Format.double.limit := by
    decide +kernel
  have hlimit := (ht.round_product_le hlt.le he).trans_lt htop
  have hpow : (10 : ℚ) ^ Int.ofNat e = (10 ^ e : Nat) := by
    rw [Int.ofNat_eq_natCast, zpow_natCast, Nat.cast_pow, Nat.cast_ofNat]
  refine ⟨_, Format.double.fits_round hlimit, ?_, ?_, ?_⟩
  · have hproduct : (.ofNat v : Double) * ten e =
        .finite false _ (Format.double.fits_round hlimit) := by
      rw [hten, hwhole, Binary.finite_mul_finite, Binary.quotient_eq_finite hlimit]
    have hfinite : ((.ofNat v : Double) * ten e).isFinite = true := by
      rw [hproduct]
      rfl
    rw [scaled, if_neg hv.ne', if_neg (show ¬ 308 < e by omega), if_pos hfinite, hproduct]
  · rw [hpow]
    exact Format.double.near_product ht.near hv
      ((Format.double.two_pow_le_one (by decide)).trans ht.one_le)
  · intro hexact z hz heq
    rw [hpow] at heq
    have heq : z = v * 10 ^ e * Format.double.one := by exact_mod_cast heq
    have hnum : v * Format.double.one * t = z * Format.double.one := by
      rw [ht.exact hexact, heq]
      ring
    rw [hnum, Format.double.round_mul Format.double.one_pos hz]

theorem scaled_negSucc {v e : Nat} (hv : 0 < v) (hlt : v < 10 ^ 14) (he : e < 149) :
    ∃ y fits, scaled v (.negSucc e) = some (.finite false y fits) ∧ Scales v (.negSucc e) y := by
  obtain ⟨t, hfits, hten, ht⟩ := ten_eq (show e + 1 ≤ 308 by omega)
  obtain ⟨hvfits, hwhole⟩ := ofNat_eq_of_lt hlt
  have hpos : 0 < t := Format.double.one_pos.trans_le ht.one_le
  have hlimit := (ht.round_quotient_le hvfits.1).trans_lt hvfits.2
  have hpow : (v : ℚ) * 10 ^ Int.negSucc e = v / (10 ^ (e + 1) : Nat) := by
    rw [zpow_negSucc, Nat.cast_pow, Nat.cast_ofNat, div_eq_mul_inv]
  refine ⟨_, Format.double.fits_round hlimit, ?_, ?_, ?_⟩
  · have hquot : (.ofNat v : Double) / ten (e + 1) =
        .finite false _ (Format.double.fits_round hlimit) := by
      rw [hten, hwhole, Binary.finite_div_finite hpos, Binary.quotient_eq_finite hlimit]
    simp only [scaled, if_neg hv.ne', divideByTens, if_pos (show e + 1 ≤ 308 by omega), hquot]
  · rw [hpow]
    apply Format.double.near_quotient ht.near (Nat.pow_pos (by decide)) hpos
    apply ht.normal_quotient hv
    calc 2 ^ (Format.double.precision - 1) * (2 * 10 ^ (e + 1))
        ≤ 2 ^ (Format.double.precision - 1) * (2 * 10 ^ 149) := by
          apply Nat.mul_le_mul_left
          exact Nat.mul_le_mul_left 2 (Nat.pow_le_pow_right (by decide) he)
      _ ≤ Format.double.one := by decide +kernel
  · intro hexact z hz heq
    have heq : z * 10 ^ (e + 1) = v * Format.double.one := by
      rw [hpow, div_mul_eq_mul_div, eq_div_iff (by positivity)] at heq
      exact_mod_cast heq
    have hnum : v * Format.double.one * Format.double.one = z * t := by
      rw [ht.exact hexact, ← heq]
      ring
    rw [hnum, Format.double.round_mul hpos hz]

/-- Within the exponents of single precision there is one product or one quotient. -/
theorem exists_scales {v : Nat} {e : Int} (hv : 0 < v) (hlt : v < 10 ^ 14) (hlow : -149 ≤ e)
    (hupp : e ≤ 38) : ∃ y fits, scaled v e = some (.finite false y fits) ∧ Scales v e y := by
  cases e with
  | ofNat e => exact scaled_ofNat hv hlt (by simpa using hupp)
  | negSucc e => exact scaled_negSucc hv hlt (by omega)

end AdaptiveRate.Json.Numeral
