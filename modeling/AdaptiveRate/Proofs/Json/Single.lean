import AdaptiveRate.Proofs.Json.Numeral
import AdaptiveRate.Proofs.Json.Scaling
import AdaptiveRate.Proofs.Number.NearMiss

namespace AdaptiveRate.Json.Numeral

open AdaptiveRate.Number

variable {r k c j m v y : Nat} {e : Int}

/-- The double precision number for `p` units of `10 ^ -149`, with both counted in units of the
other format: the two differ by a small part, and not at all where the decimal is short. -/
structure Carries (p y : Nat) : Prop where
  upper : 2 ^ 51 * (y * Format.single.one * Format.single.decimalUnit) ≤
    (2 ^ 51 + 1) * (p * Format.double.one)
  lower : 2 ^ 51 * (p * Format.double.one) ≤
    2 ^ 51 * (y * Format.single.one * Format.single.decimalUnit) + p * Format.double.one

theorem unit_mul (q : ℚ) :
    q * 10 ^ (j - 149 : Int) * Format.single.one * Format.single.decimalUnit = q * 10 ^ j := by
  have hten : (Format.single.one * Format.single.decimalUnit : ℚ) = 10 ^ 149 := by
    have hnat : Format.single.one * Format.single.decimalUnit = 10 ^ 149 := by decide +kernel
    exact_mod_cast hnat
  rw [mul_assoc, hten, mul_assoc, ← zpow_natCast, ← zpow_natCast, ← zpow_add₀ (by norm_num)]
  congr 2
  omega

theorem Scales.carries (h : Scales v e y) (hvalue : (v : ℚ) * 10 ^ e = c * 10 ^ (j - 149 : Int)) :
    Carries (c * 10 ^ j) y := by
  have hpart : 4 * Format.double.part = 1 / 2 ^ 51 := by
    change (4 : ℚ) * (1 / 2 ^ 53) = 1 / 2 ^ 51
    norm_num
  have hunit := unit_mul (j := j) (c : ℚ)
  have hnear := h.near.mul (a := Format.single.one * Format.single.decimalUnit) (by positivity)
  have hleft : (Format.single.one * Format.single.decimalUnit * y : ℚ) =
      y * Format.single.one * Format.single.decimalUnit := by ring
  have hright : (Format.single.one * Format.single.decimalUnit * (v * 10 ^ e * Format.double.one) :
      ℚ) = c * 10 ^ j * Format.double.one := by
    rw [hvalue, ← hunit]
    ring
  rw [Near, hpart, hleft, hright] at hnear
  obtain ⟨hlow, hupp⟩ := abs_le.1 hnear
  constructor
  · suffices (2 ^ 51 * (y * Format.single.one * Format.single.decimalUnit) : ℚ) ≤
        (2 ^ 51 + 1) * (c * 10 ^ j * Format.double.one) by exact_mod_cast this
    linarith
  · suffices (2 ^ 51 * (c * 10 ^ j * Format.double.one) : ℚ) ≤
        2 ^ 51 * (y * Format.single.one * Format.single.decimalUnit) +
          c * 10 ^ j * Format.double.one by exact_mod_cast this
    linarith

/-- A short decimal that is a halfway point is carried over exactly. -/
theorem Scales.carries_exact (h : Scales v e y) (hshort : e.natAbs ≤ 15)
    (hvalue : (v : ℚ) * 10 ^ e = c * 10 ^ (j - 149 : Int)) (hr : r < 2 ^ 25)
    (hhalf : 2 * (c * 10 ^ j) = r * Format.single.decimalUlp k) :
    2 * (y * Format.single.one * Format.single.decimalUnit) =
      r * Format.single.decimalUlp k * Format.double.one := by
  obtain ⟨i, hone⟩ : ∃ i, Format.double.one = 2 * 2 ^ i * Format.single.one :=
    ⟨924, by decide +kernel⟩
  have hscale : 2 * (r * 2 ^ (k + i) * Format.single.one * Format.single.decimalUnit) =
      r * Format.single.decimalUlp k * Format.double.one := by
    rw [hone, Format.decimalUlp, Nat.pow_add]
    ring
  have hpoint : r * 2 ^ (k + i) * Format.single.one * Format.single.decimalUnit =
      c * 10 ^ j * Format.double.one := by
    rw [← hhalf] at hscale
    linarith
  have hunit : (Format.single.one * Format.single.decimalUnit : ℚ) ≠ 0 := by
    have hpos := Nat.mul_pos Format.single.one_pos Format.single.decimalUnit_pos
    exact_mod_cast hpos.ne'
  have hexact : 10 ^ e.natAbs ≤ 2 ^ 53 :=
    (Nat.pow_le_pow_right (by decide) hshort).trans (show 10 ^ 15 ≤ 2 ^ 53 by decide)
  have hheld : Format.double.ulp (r * 2 ^ (k + i)) ∣ r * 2 ^ (k + i) :=
    Format.double.ulp_dvd (hr.le.trans (by decide))
  have hequal : ((r * 2 ^ (k + i) : ℕ) : ℚ) = v * 10 ^ e * Format.double.one := by
    apply mul_right_cancel₀ hunit
    have hmul := unit_mul (j := j) (c : ℚ)
    calc ((r * 2 ^ (k + i) : ℕ) : ℚ) * (Format.single.one * Format.single.decimalUnit)
        = ((r * 2 ^ (k + i) * Format.single.one * Format.single.decimalUnit : ℕ) : ℚ) := by
          push_cast
          ring
      _ = c * 10 ^ j * Format.double.one := by
          rw [hpoint]
          push_cast
          ring
      _ = v * 10 ^ e * Format.double.one * (Format.single.one * Format.single.decimalUnit) := by
          rw [← hmul, hvalue]
          ring
  rw [h.exact hexact _ hheld hequal, hscale]

section Round

variable {p h : Nat}

theorem round_scaled (y : Nat) : Format.single.round (y * Format.single.one) Format.double.one =
    Format.single.round (y * Format.single.one * Format.single.decimalUnit)
      (Format.double.one * Format.single.decimalUnit) := by
  rw [← Format.single.round_mul_mul Format.single.decimalUnit_pos, Nat.mul_comm _ (y * _),
    Nat.mul_comm _ Format.double.one]

theorem place_scaled (k : Nat) : Format.double.one * Format.single.decimalUnit * 2 ^ k =
    Format.double.one * Format.single.decimalUlp k := by
  rw [Format.decimalUlp]
  ring

theorem place_pos (k : Nat) : 0 < Format.double.one * Format.single.decimalUlp k :=
  Nat.mul_pos Format.double.one_pos (Format.single.decimalUlp_pos k)

theorem den_pos : 0 < Format.double.one * Format.single.decimalUnit :=
  Nat.mul_pos Format.double.one_pos Format.single.decimalUnit_pos

theorem round_eq_of_within (hr : r < 2 ^ 24) (hk : k = 0 ∨ 2 ^ 24 < 2 * r)
    (hlow : 2 * (r * (Format.double.one * Format.single.decimalUlp k)) ≤
      2 * (y * Format.single.one * Format.single.decimalUnit) +
        Format.double.one * Format.single.decimalUlp k)
    (hupp : 2 * (y * Format.single.one * Format.single.decimalUnit) ≤
      2 * (r * (Format.double.one * Format.single.decimalUlp k)) +
        Format.double.one * Format.single.decimalUlp k)
    (htie : r % 2 = 0 ∨ 2 * (r * (Format.double.one * Format.single.decimalUlp k)) <
        2 * (y * Format.single.one * Format.single.decimalUnit) +
          Format.double.one * Format.single.decimalUlp k ∧
      2 * (y * Format.single.one * Format.single.decimalUnit) <
        2 * (r * (Format.double.one * Format.single.decimalUlp k)) +
          Format.double.one * Format.single.decimalUlp k) :
    Format.single.round (y * Format.single.one) Format.double.one = r * 2 ^ k := by
  rw [← place_scaled] at hlow hupp htie
  rw [round_scaled]
  exact Format.single.round_eq den_pos hr hk hlow hupp htie

/-- Powers of two are included where the place is that of the quotient. -/
theorem round_eq_of_within_place (heven : r % 2 = 0)
    (hplace : 2 ^ 24 * (Format.double.one * Format.single.decimalUlp k) ≤
      2 * (y * Format.single.one * Format.single.decimalUnit))
    (hlt : y * Format.single.one * Format.single.decimalUnit <
      2 ^ 24 * (Format.double.one * Format.single.decimalUlp k))
    (hlow : 2 * (r * (Format.double.one * Format.single.decimalUlp k)) ≤
      2 * (y * Format.single.one * Format.single.decimalUnit) +
        Format.double.one * Format.single.decimalUlp k)
    (hupp : 2 * (y * Format.single.one * Format.single.decimalUnit) ≤
      2 * (r * (Format.double.one * Format.single.decimalUlp k)) +
        Format.double.one * Format.single.decimalUlp k) :
    Format.single.round (y * Format.single.one) Format.double.one = r * 2 ^ k := by
  rw [← place_scaled] at hplace hlt hlow hupp
  rw [round_scaled]
  exact Format.single.round_eq_of_place den_pos (.inr hplace) hlt hlow hupp (.inl heven)

/-- A decimal that keeps clear of both halfway points of a number is rounded to it. -/
theorem Carries.round_eq (hcarry : Carries p y) (hr : r < 2 ^ 24) (hk : k = 0 ∨ 2 ^ 24 < 2 * r)
    (hlow : 2 ^ 27 * (r * Format.single.decimalUlp k) + Format.single.decimalUlp k ≤
      2 ^ 27 * p + 2 ^ 26 * Format.single.decimalUlp k)
    (hupp : 2 ^ 27 * p + Format.single.decimalUlp k ≤
      2 ^ 27 * (r * Format.single.decimalUlp k) + 2 ^ 26 * Format.single.decimalUlp k) :
    Format.single.round (y * Format.single.one) Format.double.one = r * 2 ^ k := by
  obtain ⟨hupper, hlower⟩ := hcarry
  have hpos := place_pos k
  have hlow' := Nat.mul_le_mul_left Format.double.one hlow
  have hupp' := Nat.mul_le_mul_left Format.double.one hupp
  have hsmall : (r + 1) * (Format.double.one * Format.single.decimalUlp k) ≤
      2 ^ 24 * (Format.double.one * Format.single.decimalUlp k) := Nat.mul_le_mul_right _ hr
  have hstrict : 2 * (r * (Format.double.one * Format.single.decimalUlp k)) <
        2 * (y * Format.single.one * Format.single.decimalUnit) +
          Format.double.one * Format.single.decimalUlp k ∧
      2 * (y * Format.single.one * Format.single.decimalUnit) <
        2 * (r * (Format.double.one * Format.single.decimalUlp k)) +
          Format.double.one * Format.single.decimalUlp k := by
    constructor <;> linarith
  exact round_eq_of_within hr hk hstrict.1.le hstrict.2.le (.inr hstrict)

/-- The two halfway points next to a number, counted in half places. -/
def Beside (r h : Nat) : Prop := h = 2 * r + 1 ∨ h + 1 = 2 * r

/-- A halfway point is rounded to the even one of its two neighbours. -/
theorem round_eq_of_halfway (hr : r < 2 ^ 24) (hk : k = 0 ∨ 2 ^ 24 < 2 * r) (heven : r % 2 = 0)
    (hh : Beside r h) (hexact : 2 * (y * Format.single.one *
      Format.single.decimalUnit) = h * Format.single.decimalUlp k * Format.double.one) :
    Format.single.round (y * Format.single.one) Format.double.one = r * 2 ^ k := by
  have hhalf : h * Format.single.decimalUlp k * Format.double.one =
      h * (Format.double.one * Format.single.decimalUlp k) := by ring
  have hpos := place_pos k
  have hwithin : 2 * (r * (Format.double.one * Format.single.decimalUlp k)) ≤
        2 * (y * Format.single.one * Format.single.decimalUnit) +
          Format.double.one * Format.single.decimalUlp k ∧
      2 * (y * Format.single.one * Format.single.decimalUnit) ≤
        2 * (r * (Format.double.one * Format.single.decimalUlp k)) +
          Format.double.one * Format.single.decimalUlp k := by
    rw [hexact, hhalf]
    generalize Format.double.one * Format.single.decimalUlp k = place at hpos ⊢
    rcases hh with rfl | hh
    · constructor <;> linarith
    · have hplace : (h + 1) * place = 2 * r * place := by rw [hh]
      constructor <;> linarith
  exact round_eq_of_within hr hk hwithin.1 hwithin.2 (.inl heven)

/-- Below a power of two the places are half as wide, and the even end of them is that power. -/
theorem Carries.round_eq_two_pow (hcarry : Carries p y)
    (hlow : 2 ^ 50 * Format.single.decimalUlp (k + 1) + Format.single.decimalUlp (k + 1) ≤
      2 ^ 27 * p + 2 ^ 25 * Format.single.decimalUlp (k + 1))
    (hupp : 2 ^ 27 * p + Format.single.decimalUlp (k + 1) ≤
      2 ^ 50 * Format.single.decimalUlp (k + 1) + 2 ^ 26 * Format.single.decimalUlp (k + 1)) :
    Format.single.round (y * Format.single.one) Format.double.one = 2 ^ 23 * 2 ^ (k + 1) := by
  obtain ⟨hupper, hlower⟩ := hcarry
  have hpos := place_pos k
  have hdouble : Format.single.decimalUlp (k + 1) = 2 * Format.single.decimalUlp k := by
    rw [Format.decimalUlp, Format.decimalUlp, Nat.pow_succ]
    ring
  rw [hdouble] at hlow hupp
  have hlow' := Nat.mul_le_mul_left Format.double.one hlow
  have hupp' := Nat.mul_le_mul_left Format.double.one hupp
  have hplace : Format.double.one * Format.single.decimalUlp (k + 1) =
      2 * (Format.double.one * Format.single.decimalUlp k) := by
    rw [hdouble]
    ring
  rcases Nat.lt_or_ge (y * Format.single.one * Format.single.decimalUnit)
    (2 ^ 24 * (Format.double.one * Format.single.decimalUlp k)) with hless | hmore
  · calc Format.single.round (y * Format.single.one) Format.double.one = 2 ^ 24 * 2 ^ k := by
          apply round_eq_of_within_place rfl ?_ hless <;> linarith
      _ = 2 ^ 23 * 2 ^ (k + 1) := by ring
  · apply round_eq_of_within_place rfl <;> linarith

theorem le_of_five_pow_dvd {i n : Nat} (hpos : 0 < n) (hlt : n < 2 ^ 28) (hdvd : 5 ^ i ∣ n) :
    i ≤ 15 := by
  by_contra hlarge
  have hpow : 5 ^ 16 ≤ 5 ^ i := Nat.pow_le_pow_right (by decide) (by omega)
  have hle := Nat.le_of_dvd hpos hdvd
  omega

/-- Halfway points with few digits are close to whole numbers. -/
theorem short_of_halfway {s : Nat} (heq : 2 * (c * 10 ^ j) = h * (2 ^ k * 5 ^ s)) (hc : 0 < c)
    (hlt : c < 2 ^ 28) (hh : h < 2 ^ 25) : j ≤ s + 15 ∧ s ≤ j + 15 := by
  have hcoprime : ∀ i n, Nat.Coprime (5 ^ i) (2 ^ n) := fun i n ↦ Nat.Coprime.pow i n (by decide)
  have hten : 10 ^ j = 2 ^ j * 5 ^ j := by rw [← Nat.mul_pow]
  rw [hten] at heq
  -- The fives that are left on one side divide the digits on the other.
  rcases Nat.le_total s j with hsj | hjs
  · obtain ⟨i, rfl⟩ := Nat.exists_eq_add_of_le hsj
    have hcancel : 2 ^ (s + i + 1) * c * 5 ^ i = h * 2 ^ k := by
      apply Nat.eq_of_mul_eq_mul_right (Nat.pow_pos (n := s) (show 0 < 5 by decide))
      rw [Nat.mul_assoc h, ← heq, Nat.pow_add 5, Nat.pow_succ 2 (s + i)]
      ring
    have hpos : 0 < h := by
      apply Nat.pos_of_ne_zero
      rintro rfl
      have : 0 < 2 ^ (s + i + 1) * c * 5 ^ i := by positivity
      omega
    have hdvd : 5 ^ i ∣ h := (hcoprime i k).dvd_of_dvd_mul_right (Dvd.intro_left _ hcancel)
    have hle := le_of_five_pow_dvd hpos (by omega) hdvd
    omega
  · obtain ⟨i, rfl⟩ := Nat.exists_eq_add_of_le hjs
    have hcancel : c * 2 ^ (j + 1) = h * 2 ^ k * 5 ^ i := by
      apply Nat.eq_of_mul_eq_mul_right (Nat.pow_pos (n := j) (show 0 < 5 by decide))
      rw [Nat.mul_assoc _ (5 ^ i), ← Nat.pow_add, Nat.add_comm i, Nat.mul_assoc h, ← heq,
        Nat.pow_succ 2 j]
      ring
    have hdvd : 5 ^ i ∣ c :=
      (hcoprime i (j + 1)).dvd_of_dvd_mul_right (Dvd.intro_left _ hcancel.symm)
    have hle := le_of_five_pow_dvd hc hlt hdvd
    omega

theorem digits_lt (hshort : Format.single.Shortens r k c j) (hr : r < 2 ^ 24) : c < 2 ^ 28 := by
  have hten : 0 < 10 ^ j := Nat.pow_pos (by decide)
  have hsmall : (r + 1) * Format.single.decimalUlp k ≤ 2 ^ 24 * Format.single.decimalUlp k :=
    Nat.mul_le_mul_right _ hr
  have hle : c * 10 ^ j ≤ 2 ^ 24 * 10 * 10 ^ j := by
    have hcoarse := Nat.mul_le_mul_left (2 ^ 24) hshort.coarse
    have hinside := hshort.inside_low
    rw [Nat.pow_succ 10 j] at hcoarse
    linarith
  have hdigits := Nat.le_of_mul_le_mul_right hle hten
  omega

theorem digits_pos (hshort : Format.single.Shortens r k c j) (hpos : 0 < r) : 0 < c := by
  have hplace := Format.single.decimalUlp_pos k
  apply Nat.pos_of_ne_zero
  rintro rfl
  have hinside := hshort.inside_high
  have hle : Format.single.decimalUlp k ≤ r * Format.single.decimalUlp k :=
    Nat.le_mul_of_pos_left _ hpos
  omega

theorem exponent_lt (hshort : Format.single.Shortens r k c j) (hpos : 0 < r) (hr : r < 2 ^ 24)
    (hlt : k < 254) : j < 188 := by
  have hplace : Format.single.decimalUlp k ≤ 2 ^ 253 * Format.single.decimalUnit :=
    Nat.mul_le_mul_right _ (Nat.pow_le_pow_right two_pos (by omega))
  have hsmall : (r + 1) * Format.single.decimalUlp k ≤ 2 ^ 24 * Format.single.decimalUlp k :=
    Nat.mul_le_mul_right _ hr
  have hinside := hshort.inside_low
  have hdigits : 10 ^ j ≤ c * 10 ^ j := Nat.le_mul_of_pos_left _ (digits_pos hshort hpos)
  have hbound : 2 ^ 24 * (2 ^ 253 * Format.single.decimalUnit) < 10 ^ 188 := by decide +kernel
  have hpow : 10 ^ j < 10 ^ 188 := by linarith
  exact (Nat.pow_lt_pow_iff_right (by decide)).1 hpow

section Suspect

variable (hshort : Format.single.Shortens r k c j) (hpos : 0 < r) (hr : r < 2 ^ 24)
  (hk : k = 0 ∨ 2 ^ 24 < 2 * r) (hscales : Scales v e y) (he : e = -1 ∨ e = (j : Int) - 149)
  (hvalue : (v : ℚ) * 10 ^ e = c * 10 ^ (j - 149 : Int))

include hshort hpos hr hk hscales he hvalue

theorem round_eq_of_hit (hh : Beside r h)
    (hhit : 2 * (c * 10 ^ j) = h * Format.single.decimalUlp k) :
    Format.single.round (y * Format.single.one) Format.double.one = r * 2 ^ k := by
  have hplace := Format.single.decimalUlp_pos k
  have heven : r % 2 = 0 := by
    rcases Nat.mod_two_eq_zero_or_one r with heven | hodd
    · exact heven
    · obtain ⟨hlow, hupp⟩ := hshort.inside_odd hodd
      rw [hhit] at hlow hupp
      rcases hh with rfl | hh
      · linarith
      · have hplaces : (h + 1) * Format.single.decimalUlp k =
            2 * r * Format.single.decimalUlp k := by
          rw [hh]
        linarith
  have hlt : h < 2 ^ 25 := by
    rcases hh with rfl | hh <;> omega
  obtain ⟨hle, hge⟩ := short_of_halfway hhit (digits_pos hshort hpos) (digits_lt hshort hr) hlt
  have hscale : Format.single.scale = 149 := rfl
  have hexact := hscales.carries_exact (by omega) hvalue hlt hhit
  exact round_eq_of_halfway hr hk heven hh hexact

theorem round_eq_or_suspect_of_beside (hlt : k < 254) (hh : Beside r h)
    (hcoarse : (2 ^ 26 - 1) * Format.single.decimalUlp k < 2 ^ 26 * 10 ^ j)
    (hlow : 2 ^ 27 * (c * 10 ^ j) ≤ 2 ^ 26 * (h * Format.single.decimalUlp k) +
      Format.single.decimalUlp k)
    (hhigh : 2 ^ 26 * (h * Format.single.decimalUlp k) ≤ 2 ^ 27 * (c * 10 ^ j) +
      Format.single.decimalUlp k) :
    Format.single.round (y * Format.single.one) Format.double.one = r * 2 ^ k ∨
      ∃ h, Beside r h ∧ (k, h) ∈ Single.suspects := by
  have hrange : h % 2 = 1 ∧ h < 2 ^ 25 ∧ (k = 0 ∨ 2 ^ 24 < h) := by
    unfold Beside at hh
    omega
  obtain ⟨hodd, hless, hnormal⟩ := hrange
  rcases Single.eq_halfway_or_suspect hlt hodd hless hnormal hcoarse hlow hhigh with hhit | hsuspect
  · exact .inl (round_eq_of_hit hshort hpos hr hk hscales he hvalue hh hhit)
  · exact .inr ⟨h, hh, hsuspect⟩

/-- The shortest decimal is read back, unless it is one of those that miss a halfway point by very
little. -/
theorem round_eq_or_suspect (hlt : k < 254) :
    Format.single.round (y * Format.single.one) Format.double.one = r * 2 ^ k ∨
      ∃ h, Beside r h ∧ (k, h) ∈ Single.suspects := by
  have hinlow := hshort.inside_low
  have hinhigh := hshort.inside_high
  have hnearlow := hshort.near_low
  have hnearhigh := hshort.near_high
  by_cases hlow : 2 ^ 27 * (r * Format.single.decimalUlp k) + Format.single.decimalUlp k ≤
      2 ^ 27 * (c * 10 ^ j) + 2 ^ 26 * Format.single.decimalUlp k
  · by_cases hupp : 2 ^ 27 * (c * 10 ^ j) + Format.single.decimalUlp k ≤
        2 ^ 27 * (r * Format.single.decimalUlp k) + 2 ^ 26 * Format.single.decimalUlp k
    · exact .inl ((hscales.carries hvalue).round_eq hr hk hlow hupp)
    · -- The decimal is at the upper halfway point, as far as double precision tells.
      have hmul : (2 * r + 1) * Format.single.decimalUlp k =
          2 * (r * Format.single.decimalUlp k) + Format.single.decimalUlp k := by ring
      apply round_eq_or_suspect_of_beside hshort hpos hr hk hscales he hvalue hlt
        (h := 2 * r + 1) (.inl rfl) <;> omega
  · -- Below zero there is no halfway point, and the number is not zero.
    obtain ⟨h, hh⟩ : ∃ h, h + 1 = 2 * r := ⟨2 * r - 1, by omega⟩
    have hmul : h * Format.single.decimalUlp k + Format.single.decimalUlp k =
        2 * (r * Format.single.decimalUlp k) := by
      rw [← Nat.succ_mul, Nat.succ_eq_add_one, hh, Nat.mul_assoc]
    apply round_eq_or_suspect_of_beside hshort hpos hr hk hscales he hvalue hlt (.inr hh) <;> omega

end Suspect

end Round

/-- A decimal is read as a number if every double precision number for it is rounded to that one. -/
theorem toSingle?_of_round {fits : Format.single.Fits m} (hc : 0 < c) (hlt : c < 10 ^ 14)
    (hj : j < 188) (hround : ∀ v e y, Scales v e y → e = -1 ∨ e = (j : Int) - 149 →
      (v : ℚ) * 10 ^ e = c * 10 ^ (j - 149 : Int) →
      Format.single.round (y * Format.single.one) Format.double.one = m) :
    (ofDecimal false ⟨c, (j : Int) - 149⟩).toSingle? = some (.finite false m fits) := by
  obtain ⟨v, e, heq, hv, hvlt, he, hvalue⟩ :=
    toDouble?_ofDecimal (d := ⟨c, (j : Int) - 149⟩) hc.ne' hlt
  dsimp only at he hvalue
  obtain ⟨y, hy, hscaled, hscales⟩ := exists_scales hv hvlt (e := e) (by omega) (by omega)
  have hint : (ofDecimal false ⟨c, (j : Int) - 149⟩).toInt? = none := toInt?_ofDecimal hc.ne'
  have hsingle : Double.toSingle (.finite false y hy) = .finite false m fits := by
    rw [Double.toSingle, Binary.convert_finite]
    exact Binary.quotient_eq_of_fits (hround v e y hscales he hvalue) fits
  rw [toSingle?, hint, heq, hscaled, Option.map_some, hsingle]

def ReadsBack (m : Nat) : Prop := (shortest .single .even m).digits ≠ 0 ∧
  ∃ fits, (ofDecimal false (shortest .single .even m)).toSingle? = some (.finite false m fits)

instance (m : Nat) : Decidable (ReadsBack m) := inferInstanceAs (Decidable (_ ∧ ∃ _, _))

section Powers

/-- A grid past the interval of the power of two `2 ^ (k + 24)`. -/
def pastGrid (k : Nat) : Nat := 30103 * k / 100000 + 113

def powerDecimal (k : Nat) : Decimal :=
  shortestFrom .single .even (2 ^ 23 * 2 ^ (k + 1)) (pastGrid k)

structure Clear (k c j : Nat) : Prop where
  pos : 0 < c
  lt : c < 10 ^ 14
  exponent_lt : j < 188
  lower : 2 ^ 50 * Format.single.decimalUlp (k + 1) + Format.single.decimalUlp (k + 1) ≤
    2 ^ 27 * (c * 10 ^ j) + 2 ^ 25 * Format.single.decimalUlp (k + 1)
  upper : 2 ^ 27 * (c * 10 ^ j) + Format.single.decimalUlp (k + 1) ≤
    2 ^ 50 * Format.single.decimalUlp (k + 1) + 2 ^ 26 * Format.single.decimalUlp (k + 1)

instance (k c j : Nat) : Decidable (Clear k c j) :=
  decidable_of_iff (0 < c ∧ c < 10 ^ 14 ∧ j < 188 ∧ _ ∧ _)
    ⟨fun ⟨hpos, hlt, hj, hlow, hupp⟩ ↦ ⟨hpos, hlt, hj, hlow, hupp⟩,
      fun h ↦ ⟨h.pos, h.lt, h.exponent_lt, h.lower, h.upper⟩⟩

theorem clear_powerDecimal : ∀ k ∈ List.range 253,
    0 < (Format.single.roundingInterval (2 ^ 23 * 2 ^ (k + 1))).lower ∧
      (Format.single.roundingInterval (2 ^ 23 * 2 ^ (k + 1))).upper < 4 * tens (pastGrid k + 1) ∧
      (powerDecimal k).exponent = ((powerDecimal k).exponent + 149).toNat - 149 ∧
      Clear k (powerDecimal k).digits ((powerDecimal k).exponent + 149).toNat := by
  decide +kernel

theorem readsBack_two_pow (hk : k < 253) (fits : Format.single.Fits (2 ^ 23 * 2 ^ (k + 1))) :
    ReadsBack (2 ^ 23 * 2 ^ (k + 1)) := by
  obtain ⟨hlower, hpast, hexponent, hclear⟩ := clear_powerDecimal k (List.mem_range.2 hk)
  have hne : 2 ^ 23 * 2 ^ (k + 1) ≠ 0 := (Nat.mul_pos (by decide) (Nat.two_pow_pos _)).ne'
  have hshortest : shortest .single .even (2 ^ 23 * 2 ^ (k + 1)) = powerDecimal k :=
    Format.single.shortest_eq hlower hne hpast
  rw [ReadsBack, hshortest]
  generalize powerDecimal k = d at hexponent hclear ⊢
  obtain ⟨c, exponent⟩ := d
  dsimp only at hexponent hclear ⊢
  generalize (exponent + 149).toNat = j at hexponent hclear
  subst hexponent
  refine ⟨hclear.pos.ne', fits, toSingle?_of_round hclear.pos hclear.lt hclear.exponent_lt ?_⟩
  intro v e y hscales _ hvalue
  exact (hscales.carries hvalue).round_eq_two_pow hclear.lower hclear.upper

end Powers

theorem readsBack_suspects : ∀ x ∈ Single.suspects, ∀ r ∈ [x.2 / 2, x.2 / 2 + 1],
    ReadsBack (r * 2 ^ x.1) := by decide +kernel

theorem readsBack_of_shortens (fits : Format.single.Fits (r * 2 ^ k)) (hpos : 0 < r)
    (hulp : Format.single.ulp (r * 2 ^ k) = 2 ^ k) (hr : r < 2 ^ 24) (hk : k = 0 ∨ 2 ^ 24 < 2 * r)
    (hlt : k < 254) : ReadsBack (r * 2 ^ k) := by
  have hplain : k = 0 ∨ 2 * r ≠ 2 ^ Format.single.precision := hk.imp_right fun hless ↦ hless.ne'
  obtain ⟨c, j, hshortest, hshort⟩ : ∃ c j : Nat, shortest .single .even (r * 2 ^ k) =
      ⟨c, (j : Int) - Format.single.scale⟩ ∧ Format.single.Shortens r k c j :=
    Format.single.shortens_shortest hpos hulp hplain (by decide)
  by_cases hsuspect : ∃ h, Beside r h ∧ (k, h) ∈ Single.suspects
  · obtain ⟨h, hh, hmem⟩ := hsuspect
    apply readsBack_suspects _ hmem
    rw [List.mem_pair]
    unfold Beside at hh
    omega
  · have hc := digits_pos hshort hpos
    rw [ReadsBack, hshortest]
    refine ⟨hc.ne', fits, toSingle?_of_round hc ((digits_lt hshort hr).trans (by decide))
      (exponent_lt hshort hpos hr hlt) ?_⟩
    intro v e y hscales he hvalue
    exact (round_eq_or_suspect hshort hpos hr hk hscales he hvalue hlt).resolve_right hsuspect

theorem readsBack (fits : Format.single.Fits m) (hm : 0 < m) : ReadsBack m := by
  obtain ⟨r, k, rfl, hulp, hr, hk⟩ := Format.single.exists_place fits
  have hpos : 0 < r := Nat.pos_of_mul_pos_right hm
  have hprecision : 2 ^ Format.single.precision = 2 ^ 24 := rfl
  have hwidth : Format.single.precision = 24 ∧ Format.single.width = 277 := ⟨rfl, rfl⟩
  rw [hprecision] at hr hk
  by_cases hpower : k ≠ 0 ∧ 2 * r = 2 ^ 24
  · obtain ⟨k, rfl⟩ := Nat.exists_eq_succ_of_ne_zero hpower.1
    obtain rfl : r = 2 ^ 23 := by omega
    exact readsBack_two_pow (by omega) fits
  · exact readsBack_of_shortens fits hpos hulp hr (by omega) (by omega)

theorem toSingle?_ofDecimal_true {d : Decimal} (hd : d.digits ≠ 0) :
    (ofDecimal true d).toSingle? = (ofDecimal false d).toSingle?.map (-·) := by
  have hdouble : (ofDecimal true d).toDouble? = (ofDecimal false d).toDouble?.map (-·) := by
    have hpositive : (ofDecimal false d).negative = false := by
      rw [ofDecimal_negative]
    rw [ofDecimal_negative, toDouble?, toDouble?, hpositive]
    simp
  rw [toSingle?, toSingle?, toInt?_ofDecimal hd, toInt?_ofDecimal hd, hdouble]
  simp only [Option.map_map]
  congr 1
  funext x
  exact Binary.convert_neg x

theorem toSingle?_zero : ∀ s, (ofDecimal s ⟨0, 0⟩).toSingle? =
    some (.finite s 0 Format.single.fits_zero) := by decide +kernel

/-- Every finite number has a numeral, which is read back as that number. -/
theorem exists_ofSingle? {x : Single} (hx : x.isFinite = true) :
    ∃ n, ofSingle? x = some n ∧ n.Plain ∧ n.toSingle? = some x := by
  cases x with
  | nan => cases hx
  | infinite s => cases hx
  | finite s m fits =>
    refine ⟨_, rfl, ?_⟩
    rcases Nat.eq_zero_or_pos m with rfl | hm
    · have hzero : shortest .single .even 0 = ⟨0, 0⟩ := if_pos rfl
      rw [hzero]
      refine ⟨?_, toSingle?_zero s⟩
      cases s <;> simp [Plain, ofDecimal, Decimal.positional]
    · obtain ⟨hd, fits', hread⟩ := readsBack fits hm
      refine ⟨plain_ofDecimal hd, ?_⟩
      cases s with
      | false => exact hread
      | true =>
        rw [toSingle?_ofDecimal_true hd, hread]
        rfl

end AdaptiveRate.Json.Numeral
