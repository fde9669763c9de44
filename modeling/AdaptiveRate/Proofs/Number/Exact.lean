import AdaptiveRate.Number.Binary
import AdaptiveRate.Proofs.Number.Round

namespace AdaptiveRate.Number

theorem Format.fits_zero (f : Format) : f.Fits 0 := ⟨Nat.dvd_zero _, Nat.two_pow_pos f.width⟩

theorem Format.fits_mul_one (f : Format) {n : Nat} (h : n ≤ 2 ^ f.precision)
    (hwidth : f.precision + f.scale < f.width) : f.Fits (n * f.one) := by
  refine ⟨f.ulp_dvd h, ?_⟩
  calc n * f.one ≤ 2 ^ f.precision * 2 ^ f.scale := Nat.mul_le_mul_right _ h
    _ = 2 ^ (f.precision + f.scale) := (Nat.pow_add ..).symm
    _ < 2 ^ f.width := Nat.pow_lt_pow_right (by decide) hwidth

namespace Binary

variable {f : Format}

theorem quotient_eq_finite {s : Bool} {num den : Nat} (h : f.round num den < f.limit) :
    quotient s num den = finite s (f.round num den) (f.fits_round h) := dif_pos h

theorem quotient_eq_of_fits {s : Bool} {num den m : Nat} (h : f.round num den = m)
    (fits : f.Fits m) : quotient s num den = finite s m fits := by
  subst h
  exact quotient_eq_finite fits.2

theorem ofNat_eq_quotient (n : Nat) : (ofNat n : Binary f) = quotient false (n * f.one) 1 := by
  rw [ofNat, ofRatio, Int.natAbs_natCast, decide_eq_false (Int.not_lt.2 (Int.natCast_nonneg n))]

theorem ofNat_eq {n : Nat} (fits : f.Fits (n * f.one)) :
    (ofNat n : Binary f) = finite false (n * f.one) fits := by
  have hround : f.round (n * f.one) 1 = n * f.one := by
    simpa using f.round_mul Nat.one_pos fits.1
  rw [ofNat_eq_quotient]
  exact quotient_eq_of_fits hround fits

theorem finite_div_finite {s : Bool} {m n : Nat} {hm : f.Fits m} {hn : f.Fits n} (hpos : 0 < n) :
    (finite s m hm / finite false n hn : Binary f) = quotient s (m * f.one) n := by
  change div (finite s m hm) (finite false n hn) = _
  rw [div, if_neg hpos.ne', Bool.bne_false]

theorem finite_mul_finite {s : Bool} {m n : Nat} {hm : f.Fits m} {hn : f.Fits n} :
    (finite s m hm * finite false n hn : Binary f) = quotient s (m * n) f.one := by
  change mul (finite s m hm) (finite false n hn) = _
  rw [mul, Bool.bne_false]

theorem convert_finite {g : Format} {s : Bool} {m : Nat} {hm : f.Fits m} :
    (finite s m hm).convert = (quotient s (m * g.one) f.one : Binary g) := rfl

theorem convert_neg {g : Format} (a : Binary f) : (-a).convert = (-a.convert : Binary g) := by
  cases a with
  | nan => rfl
  | infinite s => rfl
  | finite s m fits =>
    change quotient (!s) _ _ = neg (quotient s _ _)
    unfold quotient
    split
    · rfl
    · rfl

end Binary

end AdaptiveRate.Number
