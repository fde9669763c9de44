import AdaptiveRate.Proofs.Number.Shortest
import Mathlib.Tactic.LinearCombination
import Mathlib.Tactic.Linarith

namespace AdaptiveRate.Number

/-- A fraction next to a ratio, with what it is off. -/
structure Side where
  num : Nat
  den : Nat
  gap : Nat

structure Bracket where
  upper : Side
  lower : Side

namespace Bracket

def start (a b : Nat) : Bracket := ⟨⟨1, 0, a⟩, ⟨0, 1, b⟩⟩

def narrow (s : Bracket) : Bracket :=
  let num := s.upper.num + s.lower.num
  let den := s.upper.den + s.lower.den
  if s.upper.gap ≤ s.lower.gap then ⟨s.upper, ⟨num, den, s.lower.gap - s.upper.gap⟩⟩
  else ⟨⟨num, den, s.upper.gap - s.lower.gap⟩, s.lower⟩

/-- Of the fractions with a denominator below the bound none is left inside. -/
def Closed (bound : Nat) (s : Bracket) : Prop :=
  s.upper.gap = 0 ∨ s.lower.gap = 0 ∨ bound ≤ s.upper.den + s.lower.den

instance (bound : Nat) (s : Bracket) : Decidable (s.Closed bound) :=
  inferInstanceAs (Decidable (_ ∨ _))

def walk (bound : Nat) : Nat → Bracket → Bracket
  | 0, s => s
  | n + 1, s => if s.Closed bound then s else walk bound n s.narrow

/-- A bracket around the ratio `b / a`, with no fraction between its sides that has a denominator
below the sum of theirs. -/
structure Around (s : Bracket) (a b : Nat) : Prop where
  upper_gap : s.upper.num * a = s.upper.den * b + s.upper.gap
  lower_gap : s.lower.den * b = s.lower.num * a + s.lower.gap
  adjacent : s.upper.num * s.lower.den = s.lower.num * s.upper.den + 1

variable {s : Bracket} {a b bound tol d r : Nat}

theorem around_start : (start a b).Around a b := by
  constructor <;> simp [start]

theorem Around.narrow (h : s.Around a b) : s.narrow.Around a b := by
  have hupper := h.upper_gap
  have hlower := h.lower_gap
  have hadj := h.adjacent
  unfold Bracket.narrow
  dsimp only
  split
  · refine ⟨hupper, ?_, ?_⟩
    · dsimp only
      rw [Nat.add_mul, Nat.add_mul]
      omega
    · dsimp only
      rw [Nat.mul_add, Nat.add_mul]
      omega
  · refine ⟨?_, hlower, ?_⟩
    · dsimp only
      rw [Nat.add_mul, Nat.add_mul]
      omega
    · dsimp only
      rw [Nat.add_mul, Nat.mul_add]
      omega

theorem Around.walk (h : s.Around a b) (n : Nat) : (walk bound n s).Around a b := by
  induction n generalizing s with
  | zero => exact h
  | succ n ih =>
    unfold Bracket.walk
    split
    · exact h
    · exact ih h.narrow

/-- The sides are a basis of the fractions, in which the gaps weigh what a fraction is off. -/
theorem Around.exists_coordinates (h : s.Around a b) (d r : Nat) : ∃ x y : Int,
    (r : Int) = x * s.upper.den + y * s.lower.den ∧
      (d * a - r * b : Int) = x * s.upper.gap - y * s.lower.gap := by
  obtain ⟨⟨p, q, g⟩, p', q', g'⟩ := s
  obtain ⟨hupper, hlower, hadj⟩ := h
  dsimp only at *
  zify at hupper hlower hadj
  refine ⟨d * q' - r * p', r * p - d * q, ?_, ?_⟩
  · linear_combination (-r : Int) * hadj
  · linear_combination (d * q' - r * p' : Int) * hupper - (r * p - d * q : Int) * hlower +
      (r * b - d * a : Int) * hadj

/-- A fraction with coordinates of opposite sign is off by both gaps at least. -/
theorem coordinate_nonneg {x y : Int} {q q' g g' : Nat} (hpos : 0 < x * q + y * q')
    (hclose : y * g' - x * g < g + g') : 0 ≤ x := by
  by_contra hneg
  have hq : x * q ≤ 0 := mul_nonpos_of_nonpos_of_nonneg (by omega) q.cast_nonneg
  have hy : 0 < y := pos_of_mul_pos_left (show 0 < y * (q' : Int) by omega) q'.cast_nonneg
  have hg : x * g ≤ -1 * (g : Int) := mul_le_mul_of_nonneg_right (by omega) g.cast_nonneg
  have hg' : (g' : Int) ≤ y * g' := le_mul_of_one_le_left g'.cast_nonneg hy
  omega

/-- A fraction with its denominator in range that is closer than the gaps together is one of the
sides, up to a factor. -/
theorem Around.exact_or_dvd (h : s.Around a b) (hclosed : s.Closed bound)
    (htol : tol < s.upper.gap + s.lower.gap) (hpos : 0 < r) (hlt : r < bound)
    (hlow : d * a ≤ r * b + tol) (hhigh : r * b ≤ d * a + tol) :
    d * a = r * b ∨ (0 < s.upper.gap ∧ s.upper.gap ≤ tol ∧ s.upper.den ∣ r) ∨
      (0 < s.lower.gap ∧ s.lower.gap ≤ tol ∧ s.lower.den ∣ r) := by
  obtain ⟨x, y, hr, hoff⟩ := h.exists_coordinates d r
  dsimp only [Closed] at hclosed
  generalize s.upper.den = q, s.upper.gap = g, s.lower.den = q', s.lower.gap = g' at *
  zify at htol hpos hlt hlow hhigh
  have hx : 0 ≤ x := coordinate_nonneg (hr ▸ hpos) (show y * g' - x * g < g + g' by omega)
  have hy : 0 ≤ y := coordinate_nonneg (show 0 < y * (q' : Int) + x * q by omega)
    (show x * g - y * g' < g' + g by omega)
  rcases hx.eq_or_lt with rfl | hxpos
  · rw [zero_mul, zero_add] at hr
    rw [zero_mul, zero_sub] at hoff
    have hypos : 0 < y := pos_of_mul_pos_left (hr ▸ hpos) q'.cast_nonneg
    have hle : (g' : Int) ≤ y * g' := le_mul_of_one_le_left g'.cast_nonneg hypos
    rcases Nat.eq_zero_or_pos g' with rfl | hgpos
    · left
      zify
      omega
    · exact .inr (.inr ⟨hgpos, by omega, Int.natCast_dvd_natCast.1 (Dvd.intro_left y hr.symm)⟩)
  · have hxg : (g : Int) ≤ x * g := le_mul_of_one_le_left g.cast_nonneg hxpos
    rcases hy.eq_or_lt with rfl | hypos
    · rw [zero_mul, add_zero] at hr
      rw [zero_mul, sub_zero] at hoff
      rcases Nat.eq_zero_or_pos g with rfl | hgpos
      · left
        zify
        omega
      · exact .inr (.inl ⟨hgpos, by omega, Int.natCast_dvd_natCast.1 (Dvd.intro_left x hr.symm)⟩)
    · -- Strictly between the sides the denominator is out of range, unless a side is the ratio.
      have hq : (q : Int) ≤ x * q := le_mul_of_one_le_left q.cast_nonneg hxpos
      have hq' : (q' : Int) ≤ y * q' := le_mul_of_one_le_left q'.cast_nonneg hypos
      have hyg : (g' : Int) ≤ y * g' := le_mul_of_one_le_left g'.cast_nonneg hypos
      rcases hclosed with rfl | rfl | hbound <;> omega

end Bracket

namespace Single

/-- The least exponent of a power of ten that is not below the place, with the logarithms of two and
five in hundred thousandths. -/
def coarseExponent (k : Nat) : Nat := (30103 * k + 69897 * 149 - 1) / 100000 + 1

/-- A bracket around the ratio of half a place to the coarse power of ten, both scaled to make what
is close a whole place. -/
def halfwayBracket (k : Nat) : Bracket :=
  .walk (2 ^ 25) 2000
    (.start (2 ^ 27 * 10 ^ coarseExponent k) (2 ^ 26 * Format.single.decimalUlp k))

/-- The halfway points that a decimal misses by very little. -/
def suspects : List (Nat × Nat) := [(16, 18028199), (42, 22841339)]

def Harmless (k : Nat) (s : Side) : Prop :=
  0 < s.gap → s.gap ≤ Format.single.decimalUlp k → ∀ x ∈ List.range (2 ^ 25 / s.den + 1),
    s.den * x % 2 = 1 → k = 0 ∨ 2 ^ 24 < s.den * x → (k, s.den * x) ∈ suspects

instance (k : Nat) (s : Side) : Decidable (Harmless k s) :=
  inferInstanceAs (Decidable (_ → _))

def Surveyed (k : Nat) : Prop :=
  2 ^ 26 * 10 ^ (coarseExponent k - 1) ≤ (2 ^ 26 - 1) * Format.single.decimalUlp k ∧
    (halfwayBracket k).Closed (2 ^ 25) ∧
    Format.single.decimalUlp k < (halfwayBracket k).upper.gap + (halfwayBracket k).lower.gap ∧
    Harmless k (halfwayBracket k).upper ∧ Harmless k (halfwayBracket k).lower

instance (k : Nat) : Decidable (Surveyed k) := inferInstanceAs (Decidable (_ ∧ _))

theorem surveyed : ∀ k ∈ List.range 254, Surveyed k := by decide +kernel

theorem Harmless.mem_suspects {k r : Nat} {s : Side} (h : Harmless k s) (hpos : 0 < s.gap)
    (hgap : s.gap ≤ Format.single.decimalUlp k) (hdvd : s.den ∣ r) (hodd : r % 2 = 1)
    (hlt : r < 2 ^ 25) (hnormal : k = 0 ∨ 2 ^ 24 < r) : (k, r) ∈ suspects := by
  obtain ⟨x, rfl⟩ := hdvd
  have hden : 0 < s.den := by
    by_contra hzero
    rw [Nat.eq_zero_of_not_pos hzero, Nat.zero_mul] at hodd
    cases hodd
  refine h hpos hgap x (List.mem_range.2 ?_) hodd hnormal
  rw [Nat.lt_succ_iff, Nat.le_div_iff_mul_le hden, Nat.mul_comm]
  exact hlt.le

/-- A decimal on a coarse grid that is within `2 ^ -26` places of a halfway point is that point, but
for two of them. -/
theorem eq_halfway_or_suspect {k r c j : Nat} (hk : k < 254) (hodd : r % 2 = 1) (hlt : r < 2 ^ 25)
    (hnormal : k = 0 ∨ 2 ^ 24 < r)
    (hcoarse : (2 ^ 26 - 1) * Format.single.decimalUlp k < 2 ^ 26 * 10 ^ j)
    (hlow : 2 ^ 27 * (c * 10 ^ j) ≤ 2 ^ 26 * (r * Format.single.decimalUlp k) +
      Format.single.decimalUlp k)
    (hhigh : 2 ^ 26 * (r * Format.single.decimalUlp k) ≤ 2 ^ 27 * (c * 10 ^ j) +
      Format.single.decimalUlp k) :
    2 * (c * 10 ^ j) = r * Format.single.decimalUlp k ∨ (k, r) ∈ suspects := by
  obtain ⟨hleast, hclosed, hapart, hupper, hlower⟩ := surveyed k (List.mem_range.2 hk)
  have hexp : coarseExponent k ≤ j := by
    by_contra hfine
    have hpow : 10 ^ j ≤ 10 ^ (coarseExponent k - 1) :=
      Nat.pow_le_pow_right (by decide) (by omega)
    omega
  obtain ⟨e, rfl⟩ := Nat.exists_eq_add_of_le hexp
  have haround : (halfwayBracket k).Around _ _ := Bracket.around_start.walk 2000
  have hpoint : c * 10 ^ e * (2 ^ 27 * 10 ^ coarseExponent k) =
      2 ^ 27 * (c * 10 ^ (coarseExponent k + e)) := by ring
  have hmid : r * (2 ^ 26 * Format.single.decimalUlp k) =
      2 ^ 26 * (r * Format.single.decimalUlp k) := by ring
  rcases haround.exact_or_dvd (d := c * 10 ^ e) (r := r) hclosed hapart (by omega) hlt
    (by rw [hpoint, hmid]; exact hlow) (by rw [hpoint, hmid]; exact hhigh) with
    heq | ⟨hpos, hgap, hdvd⟩ | ⟨hpos, hgap, hdvd⟩
  · rw [hpoint, hmid] at heq
    left
    omega
  · exact .inr (hupper.mem_suspects hpos hgap hdvd hodd hlt hnormal)
  · exact .inr (hlower.mem_suspects hpos hgap hdvd hodd hlt hnormal)

end Single

end AdaptiveRate.Number
