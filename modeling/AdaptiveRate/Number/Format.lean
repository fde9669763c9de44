namespace AdaptiveRate.Number

/-- The nearest whole number to a quotient; a tie goes to the even one. -/
def nearest (num den : Nat) : Nat :=
  if 2 * (num % den) < den ∨ (2 * (num % den) = den ∧ num / den % 2 = 0) then num / den
  else num / den + 1

theorem nearest_le (num den : Nat) : nearest num den ≤ num / den + 1 := by
  unfold nearest
  split <;> omega

/-- A format keeps `precision` significant bits, counts in units of `2 ^ -scale`, and its finite
magnitudes end below `2 ^ width` units. -/
structure Format where
  precision : Nat
  scale : Nat
  width : Nat
  precision_pos : 0 < precision

namespace Format

def single : Format := ⟨24, 149, 277, by decide⟩

def double : Format := ⟨53, 1074, 2098, by decide⟩

variable (f : Format)

/-- Exponent of the last significant bit of a magnitude; zero below the normal range. -/
def place (n : Nat) : Nat := n.log2 + 1 - f.precision

def ulp (n : Nat) : Nat := .pow 2 (f.place n)

def one : Nat := .pow 2 f.scale

def limit : Nat := .pow 2 f.width

def Fits (n : Nat) : Prop := f.ulp n ∣ n ∧ n < f.limit

instance (n : Nat) : Decidable (f.Fits n) := inferInstanceAs (Decidable (_ ∧ _))

def round (num den : Nat) : Nat :=
  nearest num (den * f.ulp (num / den)) * f.ulp (num / den)

theorem place_zero : f.place 0 = 0 := by
  have := f.precision_pos
  simp [place]; omega

theorem ulp_pos (n : Nat) : 0 < f.ulp n := Nat.two_pow_pos _

theorem lt_mul_ulp (n : Nat) : n < Nat.pow 2 f.precision * f.ulp n := by
  have h : n < 2 ^ (n.log2 + 1) := Nat.lt_log2_self
  have he : 2 ^ f.precision * 2 ^ f.place n = 2 ^ (f.precision + f.place n) := (Nat.pow_add ..).symm
  refine Nat.lt_of_lt_of_eq ?_ he.symm
  exact Nat.lt_of_lt_of_le h (Nat.pow_le_pow_right (by decide) (by unfold place; omega))

theorem place_le {n e : Nat} (h : n < Nat.pow 2 (f.precision + e)) : f.place n ≤ e := by
  by_cases hn : n = 0
  · rw [hn, place_zero]; omega
  · have := (Nat.log2_lt hn).2 h
    unfold place; omega

theorem ulp_dvd {r e : Nat} (h : r ≤ Nat.pow 2 f.precision) :
    f.ulp (r * Nat.pow 2 e) ∣ r * Nat.pow 2 e := by
  change r ≤ 2 ^ f.precision at h
  change 2 ^ f.place (r * 2 ^ e) ∣ r * 2 ^ e
  have hp := f.precision_pos
  rcases Nat.lt_or_eq_of_le h with h | h
  · have hn : r * 2 ^ e < 2 ^ (f.precision + e) := by
      rw [Nat.pow_add]
      exact Nat.mul_lt_mul_of_pos_right h (Nat.two_pow_pos e)
    exact Nat.dvd_trans (Nat.pow_dvd_pow 2 (f.place_le hn)) (Nat.dvd_mul_left _ _)
  · have hn : r * 2 ^ e < 2 ^ (f.precision + (e + 1)) := by
      rw [h, ← Nat.pow_add]
      exact Nat.pow_lt_pow_right (by decide) (by omega)
    rw [h, ← Nat.pow_add] at *
    exact Nat.pow_dvd_pow 2 (Nat.le_trans (f.place_le hn) (by omega))

theorem nearest_ulp_le (num den : Nat) :
    nearest num (den * f.ulp (num / den)) ≤ Nat.pow 2 f.precision := by
  have h := nearest_le num (den * f.ulp (num / den))
  have hq : num / (den * f.ulp (num / den)) < Nat.pow 2 f.precision := by
    rw [← Nat.div_div_eq_div_mul, Nat.div_lt_iff_lt_mul (f.ulp_pos _)]
    exact f.lt_mul_ulp _
  omega

theorem dvd_round (num den : Nat) : f.ulp (f.round num den) ∣ f.round num den :=
  f.ulp_dvd (f.nearest_ulp_le num den)

theorem fits_round {num den : Nat} (h : f.round num den < f.limit) :
    f.Fits (f.round num den) :=
  ⟨f.dvd_round num den, h⟩

end Format

end AdaptiveRate.Number
