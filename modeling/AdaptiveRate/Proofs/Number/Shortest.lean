import AdaptiveRate.Number.Shortest
import AdaptiveRate.Proofs.Number.Round

namespace AdaptiveRate.Number

theorem tens_eq (n : Nat) : tens n = 10 ^ n := rfl

section Grid

variable {tie : Tie} {v w grid c : Nat} {closed : Bool}

theorem Interval.contains_around (closed : Bool) (x : Nat) (hw : w ≤ v) :
    (Interval.mk (v - w) (v + w) closed).contains x = true ↔
      if closed then v ≤ x + w ∧ x ≤ v + w else v < x + w ∧ x < v + w := by
  cases closed
  · simp only [contains, Bool.false_eq_true, if_false, Bool.and_eq_true, decide_eq_true_eq]
    omega
  · simp only [contains, if_true, Bool.and_eq_true, decide_eq_true_eq]
    omega

theorem Interval.near_of_contains {x : Nat} (hw : w ≤ v)
    (hx : (Interval.mk (v - w) (v + w) closed).contains x = true) : v ≤ x + w ∧ x ≤ v + w := by
  rw [Interval.contains_around closed x hw] at hx
  split at hx <;> omega

theorem Interval.far_of_not_contains {x : Nat} (hw : w ≤ v)
    (hx : (Interval.mk (v - w) (v + w) closed).contains x = false) : x + w ≤ v ∨ v + w ≤ x := by
  rw [Bool.eq_false_iff, ne_eq, Interval.contains_around closed x hw] at hx
  split at hx <;> omega

theorem grid_around (v : Nat) (hgrid : 0 < grid) : v / grid * grid + v % grid = v ∧
    v % grid < grid ∧ (v / grid + 1) * grid = v / grid * grid + grid := by
  refine ⟨Nat.div_add_mod' v grid, Nat.mod_lt v hgrid, ?_⟩
  rw [Nat.add_mul, Nat.one_mul]

theorem near_of_nearestOnGrid (hw : w ≤ v) (hgrid : 0 < grid)
    (h : nearestOnGrid tie ⟨v - w, v + w, closed⟩ v grid = some c) :
    (Interval.mk (v - w) (v + w) closed).contains (c * grid) = true ∧
      2 * (c * grid) ≤ 2 * v + grid ∧ 2 * v ≤ 2 * (c * grid) + grid := by
  obtain ⟨hsplit, hlt, hnext⟩ := grid_around v hgrid
  unfold nearestOnGrid at h
  dsimp only at h
  split at h
  · cases h
  · next hin hout =>
    cases h
    have hnear := Interval.near_of_contains hw hin
    have hfar := Interval.far_of_not_contains hw hout
    exact ⟨hin, by omega, by omega⟩
  · next hout hin =>
    cases h
    have hfar := Interval.far_of_not_contains hw hout
    have hnear := Interval.near_of_contains hw hin
    exact ⟨hin, by omega, by omega⟩
  · next hin hin' =>
    split at h
    · next hless =>
      cases h
      have hhalf := Nat.compare_eq_lt.1 hless
      exact ⟨hin, by omega, by omega⟩
    · next hmore =>
      cases h
      have hhalf := Nat.compare_eq_gt.1 hmore
      exact ⟨hin', by omega, by omega⟩
    · next heq =>
      have hhalf := Nat.compare_eq_eq.1 heq
      cases h
      split
      · exact ⟨hin, by omega, by omega⟩
      · exact ⟨hin', by omega, by omega⟩

theorem nearestOnGrid_ne_none (hw : w ≤ v) (hgrid : 0 < grid) (hfine : grid < 2 * w) :
    nearestOnGrid tie ⟨v - w, v + w, closed⟩ v grid ≠ none := by
  obtain ⟨hsplit, hlt, hnext⟩ := grid_around v hgrid
  intro hnone
  unfold nearestOnGrid at hnone
  dsimp only at hnone
  split at hnone
  · next hout hout' =>
    have hfar := Interval.far_of_not_contains hw hout
    have hfar' := Interval.far_of_not_contains hw hout'
    omega
  · cases hnone
  · cases hnone
  · split at hnone <;> cases hnone

end Grid

namespace Format

variable (f : Format) {tie : Tie} {r k : Nat}

def decimalUlp (k : Nat) : Nat := 2 ^ k * f.decimalUnit

theorem decimalUnit_pos : 0 < f.decimalUnit := Nat.pow_pos (by decide)

theorem decimalUlp_pos (k : Nat) : 0 < f.decimalUlp k :=
  Nat.mul_pos (Nat.two_pow_pos k) f.decimalUnit_pos

theorem fine_eq : f.fine (r * 2 ^ k) = 4 * (r * f.decimalUlp k) := by
  rw [fine, decimalUlp]
  ring

theorem roundingInterval_eq (hulp : f.ulp (r * 2 ^ k) = 2 ^ k)
    (hplain : k = 0 ∨ 2 * r ≠ 2 ^ f.precision) : f.roundingInterval (r * 2 ^ k) =
      ⟨f.fine (r * 2 ^ k) - 2 * f.decimalUlp k, f.fine (r * 2 ^ k) + 2 * f.decimalUlp k,
        r % 2 == 0⟩ := by
  have hpos := Nat.two_pow_pos k
  have hbelow : ¬ (2 * (r * 2 ^ k) = 2 ^ f.precision * 2 ^ k ∧ 2 ^ k ≠ 1) := by
    rintro ⟨heq, hne⟩
    rcases hplain with rfl | hr
    · exact hne rfl
    · rw [← Nat.mul_assoc] at heq
      exact hr (Nat.eq_of_mul_eq_mul_right hpos heq)
  have hclosed : r * 2 ^ k / 2 ^ k = r := Nat.mul_div_cancel r hpos
  have hlower : (4 * (r * 2 ^ k) - 2 * 2 ^ k) * f.decimalUnit =
      f.fine (r * 2 ^ k) - 2 * f.decimalUlp k := by
    rw [Nat.sub_mul, fine, decimalUlp, Nat.mul_assoc 2]
  have hupper : (4 * (r * 2 ^ k) + 2 * 2 ^ k) * f.decimalUnit =
      f.fine (r * 2 ^ k) + 2 * f.decimalUlp k := by
    rw [Nat.add_mul, fine, decimalUlp, Nat.mul_assoc 2]
  simp only [roundingInterval, hulp, hclosed, Nat.pow_eq, Bool.and_eq_true, decide_eq_true_eq,
    if_neg hbelow, hlower, hupper]

section Past

variable {units n : Nat} (hlower : 0 < (f.roundingInterval units).lower)

include hlower

/-- A grid coarser than everything in the interval has no point in it. -/
theorem shortestFrom_succ (hpast : (f.roundingInterval units).upper < 4 * tens (n + 1)) :
    shortestFrom f tie units (n + 1) = shortestFrom f tie units n := by
  have hfine : f.fine units ≤ (f.roundingInterval units).upper :=
    Nat.mul_le_mul_right _ (Nat.le_add_right _ _)
  have hzero : f.fine units / (4 * tens (n + 1)) = 0 := Nat.div_eq_of_lt (by omega)
  have hnone : nearestOnGrid tie (f.roundingInterval units) (f.fine units) (4 * tens (n + 1)) =
      none := by
    generalize f.roundingInterval units = i at hlower hpast
    have houtside : ∀ x, x < i.lower ∨ i.upper < x → i.contains x = false := by
      intro x hx
      rw [Bool.eq_false_iff, Interval.contains]
      split
      · simp only [ne_eq, Bool.and_eq_true, decide_eq_true_eq]
        omega
      · simp only [ne_eq, Bool.and_eq_true, decide_eq_true_eq]
        omega
    have hbelow := houtside 0 (.inl hlower)
    have habove := houtside (4 * tens (n + 1)) (.inr hpast)
    simp only [nearestOnGrid, hzero, Nat.zero_mul, Nat.zero_add, Nat.one_mul, hbelow, habove]
  rw [shortestFrom, hnone]

theorem shortestFrom_eq (hpast : (f.roundingInterval units).upper < 4 * tens (n + 1)) {top : Nat}
    (hle : n ≤ top) : shortestFrom f tie units top = shortestFrom f tie units n := by
  induction top, hle using Nat.le_induction with
  | base => rfl
  | succ m hm ih =>
    rw [f.shortestFrom_succ hlower, ih]
    refine lt_of_lt_of_le hpast (Nat.mul_le_mul_left 4 ?_)
    exact Nat.pow_le_pow_right (by decide) (by omega)

/-- The search may begin at any grid past the interval. -/
theorem shortest_eq (hunits : units ≠ 0)
    (hpast : (f.roundingInterval units).upper < 4 * tens (n + 1)) :
    shortest f tie units = shortestFrom f tie units n := by
  have hlen : (f.roundingInterval units).upper <
      4 * tens ((Nat.toDigits 10 (f.roundingInterval units).upper).length + 1) := by
    have hdigits := (Nat.length_toDigits_le_iff (by decide) Nat.length_toDigits_pos).1
      (le_refl (Nat.toDigits 10 (f.roundingInterval units).upper).length)
    rw [tens_eq, Nat.pow_succ]
    omega
  rw [shortest, if_neg hunits]
  rcases Nat.le_total n (Nat.toDigits 10 (f.roundingInterval units).upper).length with hle | hge
  · exact f.shortestFrom_eq hlower hpast hle
  · exact (f.shortestFrom_eq hlower hlen hge).symm

end Past

/-- A decimal with `c * 10 ^ j` units of `10 ^ -scale` that stands for a magnitude: it rounds to it,
no coarser grid would do, and no other point of its grid is nearer. -/
structure Shortens (r k c j : Nat) : Prop where
  coarse : f.decimalUlp k ≤ 10 ^ (j + 1)
  near_low : 2 * (c * 10 ^ j) ≤ 2 * (r * f.decimalUlp k) + 10 ^ j
  near_high : 2 * (r * f.decimalUlp k) ≤ 2 * (c * 10 ^ j) + 10 ^ j
  inside_low : 2 * (c * 10 ^ j) ≤ 2 * (r * f.decimalUlp k) + f.decimalUlp k
  inside_high : 2 * (r * f.decimalUlp k) ≤ 2 * (c * 10 ^ j) + f.decimalUlp k
  inside_odd : r % 2 = 1 → 2 * (c * 10 ^ j) < 2 * (r * f.decimalUlp k) + f.decimalUlp k ∧
    2 * (r * f.decimalUlp k) < 2 * (c * 10 ^ j) + f.decimalUlp k

variable (hr : 0 < r) (hulp : f.ulp (r * 2 ^ k) = 2 ^ k)
  (hplain : k = 0 ∨ 2 * r ≠ 2 ^ f.precision)

include hr hulp hplain

theorem shortens_of_nearestOnGrid {c j : Nat} (hcoarse : f.decimalUlp k ≤ 10 ^ (j + 1))
    (h : nearestOnGrid tie (f.roundingInterval (r * 2 ^ k)) (f.fine (r * 2 ^ k)) (4 * tens j) =
      some c) : f.Shortens r k c j := by
  have hle : f.decimalUlp k ≤ r * f.decimalUlp k := Nat.le_mul_of_pos_left _ hr
  have hw : 2 * f.decimalUlp k ≤ f.fine (r * 2 ^ k) := by
    rw [fine_eq]
    omega
  have hgrid : 0 < 4 * tens j := Nat.mul_pos (by decide) (Nat.pow_pos (by decide))
  have hpoint : c * (4 * tens j) = 4 * (c * 10 ^ j) := by
    rw [tens_eq]
    ring
  rw [f.roundingInterval_eq hulp hplain] at h
  obtain ⟨hin, hlow, hhigh⟩ := near_of_nearestOnGrid hw hgrid h
  rw [Interval.contains_around _ _ hw, hpoint, fine_eq] at hin
  rw [hpoint, fine_eq, tens_eq] at hlow hhigh
  rcases Nat.mod_two_eq_zero_or_one r with heven | hodd
  · simp only [heven, BEq.rfl, if_true] at hin
    constructor <;> omega
  · simp only [hodd, Nat.reduceBEq, Bool.false_eq_true, if_false] at hin
    constructor <;> omega

/-- Any grid finer than the place meets the interval, so the search ends before it gets there. -/
theorem shortens_shortestFrom (hscale : 10 < f.decimalUnit) (n : Nat)
    (hcoarse : f.decimalUlp k ≤ 10 ^ (n + 1)) :
    ∃ c j : Nat, shortestFrom f tie (r * 2 ^ k) n = ⟨c, (j : Int) - f.scale⟩ ∧
      f.Shortens r k c j := by
  induction n with
  | zero =>
    have hle : f.decimalUnit ≤ f.decimalUlp k :=
      Nat.le_mul_of_pos_left _ (Nat.two_pow_pos k)
    omega
  | succ n ih =>
    cases hn : nearestOnGrid tie (f.roundingInterval (r * 2 ^ k)) (f.fine (r * 2 ^ k))
        (4 * tens (n + 1)) with
    | some c =>
      refine ⟨c, n + 1, ?_, f.shortens_of_nearestOnGrid hr hulp hplain hcoarse hn⟩
      simp only [shortestFrom, hn]
      rfl
    | none =>
      simp only [shortestFrom, hn]
      apply ih
      by_contra hfine
      have hle : f.decimalUlp k ≤ r * f.decimalUlp k := Nat.le_mul_of_pos_left _ hr
      have hw : 2 * f.decimalUlp k ≤ f.fine (r * 2 ^ k) := by
        rw [fine_eq]
        omega
      rw [f.roundingInterval_eq hulp hplain] at hn
      refine nearestOnGrid_ne_none hw (Nat.mul_pos (by decide) (Nat.pow_pos (by decide))) ?_ hn
      omega

theorem shortens_shortest (hscale : 10 < f.decimalUnit) :
    ∃ c j : Nat, shortest f tie (r * 2 ^ k) = ⟨c, (j : Int) - f.scale⟩ ∧ f.Shortens r k c j := by
  have hne : r * 2 ^ k ≠ 0 := (Nat.mul_pos hr (Nat.two_pow_pos k)).ne'
  rw [shortest, if_neg hne]
  apply f.shortens_shortestFrom hr hulp hplain hscale
  rw [f.roundingInterval_eq hulp hplain]
  dsimp only
  generalize hupper : f.fine (r * 2 ^ k) + 2 * f.decimalUlp k = upper
  have hlen : upper < 10 ^ (Nat.toDigits 10 upper).length :=
    (Nat.length_toDigits_le_iff (by decide) Nat.length_toDigits_pos).1 le_rfl
  rw [Nat.pow_succ]
  omega

end Format

end AdaptiveRate.Number
