import AdaptiveRate.Number.Binary
import AdaptiveRate.Proofs.Number.Round

namespace AdaptiveRate.Number.Binary

variable {f : Format} {a b c d : Binary f} {x y z : Int}

/-- The order of numbers. Not-a-number is not even below itself. -/
instance : LE (Binary f) := ⟨fun a b ↦ ∃ x y, a.rank = some x ∧ b.rank = some y ∧ x ≤ y⟩

instance (a b : Binary f) : Decidable (a ≤ b) :=
  match hx : a.rank, hy : b.rank with
  | some x, some y => decidable_of_iff (x ≤ y)
    ⟨fun h ↦ ⟨x, y, hx, hy, h⟩, fun ⟨_, _, hx', hy', h⟩ ↦ by
      rw [hx] at hx'
      rw [hy] at hy'
      cases hx'
      cases hy'
      exact h⟩
  | none, _ => isFalse fun ⟨_, _, hx', _⟩ ↦ by
      rw [hx] at hx'
      cases hx'
  | some _, none => isFalse fun ⟨_, _, _, hy', _⟩ ↦ by
      rw [hy] at hy'
      cases hy'

theorem le_of_rank (hx : a.rank = some x) (hy : b.rank = some y) (h : x ≤ y) : a ≤ b :=
  ⟨x, y, hx, hy, h⟩

theorem rank_bounds (hx : a.rank = some x) : -(f.limit : Int) ≤ x ∧ x ≤ f.limit := by
  cases a with
  | nan => cases hx
  | infinite s => cases s <;> cases hx <;> simp [signed]
  | finite s m fits =>
    have hlt := fits.2
    cases s <;> cases hx <;> simp only [signed] <;> constructor <;> simp <;> omega

theorem rank_bounds_of_isFinite (ha : a.isFinite = true) (hx : a.rank = some x) :
    -(f.limit : Int) < x ∧ x < f.limit := by
  cases a with
  | nan => cases ha
  | infinite s => cases ha
  | finite s m fits =>
    have hlt := fits.2
    cases s <;> cases hx <;> simp only [signed] <;> constructor <;> simp <;> omega

theorem exists_rank_of_isFinite (ha : a.isFinite = true) : ∃ x, a.rank = some x := by
  cases a with
  | nan => cases ha
  | infinite s => cases ha
  | finite s m fits => exact ⟨_, rfl⟩

theorem le_refl_of_isFinite (ha : a.isFinite = true) : a ≤ a := by
  obtain ⟨x, hx⟩ := exists_rank_of_isFinite ha
  exact le_of_rank hx hx (Int.le_refl x)

theorem eq_infinite_of_le (hx : a.rank = some x) (h : (f.limit : Int) ≤ x) :
    a = infinite false := by
  have hpos : 0 < f.limit := Nat.two_pow_pos f.width
  cases a with
  | nan => cases hx
  | infinite s =>
    cases s with
    | false => rfl
    | true =>
      cases hx
      simp only [signed, if_true] at h
      omega
  | finite s m fits =>
    have hlt := (rank_bounds_of_isFinite rfl hx).2
    omega

theorem rank_quotient (s : Bool) (num den : Nat) :
    (quotient s num den : Binary f).rank = some (signed s (min (f.round num den) f.limit)) := by
  unfold quotient
  split
  · next h => rw [Nat.min_eq_left h.le]; rfl
  · next h => rw [Nat.min_eq_right (Nat.not_lt.1 h)]; rfl

theorem rank_zero (s : Bool) : (zero s : Binary f).rank = some 0 := by
  rw [zero, rank_quotient, f.round_zero_left, Nat.zero_min]
  cases s <;> rfl

def rankNear (f : Format) (num : Int) (den : Nat) : Int :=
  signed (decide (num < 0)) (min (f.round num.natAbs den) f.limit)

theorem rankNear_mono {den : Nat} (h : x ≤ y) : rankNear f x den ≤ rankNear f y den := by
  unfold rankNear signed
  by_cases hx : x < 0
  · by_cases hy : y < 0
    · have hround : f.round y.natAbs den ≤ f.round x.natAbs den := f.round_mono (by omega)
      simp only [hx, hy, decide_true, if_true]
      omega
    · simp only [hx, hy, decide_true, decide_false, if_true, Bool.false_eq_true, if_false]
      omega
  · have hround : f.round x.natAbs den ≤ f.round y.natAbs den := f.round_mono (by omega)
    simp only [hx, not_lt.2 ((not_lt.1 hx).trans h), decide_false, Bool.false_eq_true, if_false]
    omega

theorem rank_add (ha : a.isFinite = true) (hb : b.isFinite = true) (hx : a.rank = some x)
    (hy : b.rank = some y) : (a + b).rank = some (rankNear f (x + y) 1) := by
  cases a with
  | nan => cases ha
  | infinite s => cases ha
  | finite s m fits =>
    cases b with
    | nan => cases hb
    | infinite t => cases hb
    | finite t n fits' =>
      cases hx
      cases hy
      change (add (.finite s m fits) (.finite t n fits')).rank = _
      by_cases hzero : signed s m + signed t n = 0
      · simp only [add, hzero, if_true, zero, rank_quotient, rankNear, Int.natAbs_zero,
          Format.round_zero_left]
        simp [signed]
      · simp only [add, hzero, if_false, rank_quotient, rankNear]

theorem infinite_add (s : Bool) (hb : b.isFinite = true) : infinite s + b = infinite s := by
  cases b with
  | nan => cases hb
  | infinite t => cases hb
  | finite t n fits => rfl

theorem map_le_map {op op' : Binary f → Binary f} {g g' : Int → Int} (hac : a ≤ c)
    (hinf : ∀ s, op (infinite s) = infinite s) (hinf' : ∀ s, op' (infinite s) = infinite s)
    (hfin : ∀ a x, isFinite a = true → a.rank = some x → (op a).rank = some (g x))
    (hfin' : ∀ a x, isFinite a = true → a.rank = some x → (op' a).rank = some (g' x))
    (hmono : ∀ x x', x ≤ x' → g x ≤ g' x') : op a ≤ op' c := by
  obtain ⟨x, x', hx, hx', hxx⟩ := hac
  cases a with
  | nan => cases hx
  | infinite s =>
    rw [hinf s]
    cases s with
    | true =>
      obtain ⟨z, hz⟩ : ∃ z, (op' c).rank = some z := by
        cases c with
        | nan => cases hx'
        | infinite t => exact ⟨_, by rw [hinf' t]; rfl⟩
        | finite t n fits => exact ⟨_, hfin' _ _ rfl hx'⟩
      exact le_of_rank rfl hz (rank_bounds hz).1
    | false =>
      -- Nothing but the upper end is above the upper end.
      obtain rfl : c = infinite false := eq_infinite_of_le hx' (by cases hx; exact hxx)
      rw [hinf' false]
      exact le_of_rank rfl rfl (Int.le_refl _)
  | finite s m fits =>
    have hz := hfin _ _ rfl hx
    cases c with
    | nan => cases hx'
    | infinite t =>
      rw [hinf' t]
      cases t with
      | true =>
        have hlow := (rank_bounds_of_isFinite rfl hx).1
        cases hx'
        exact absurd hxx (not_le.2 hlow)
      | false => exact le_of_rank hz rfl (rank_bounds hz).2
    | finite t n fits' => exact le_of_rank hz (hfin' _ _ rfl hx') (hmono _ _ hxx)

theorem add_le_add (hac : a ≤ c) (hbd : b ≤ d) (hb : b.isFinite = true) (hd : d.isFinite = true) :
    a + b ≤ c + d := by
  obtain ⟨y, y', hy, hy', hyy⟩ := hbd
  apply map_le_map hac (fun s ↦ infinite_add s hb) (fun s ↦ infinite_add s hd)
    (fun a x ha hx ↦ rank_add ha hb hx hy) (fun a x ha hx ↦ rank_add ha hd hx hy')
  intro x x' hxx
  exact rankNear_mono (Int.add_le_add hxx hyy)

@[simp] theorem isFinite_neg : (-a).isFinite = a.isFinite := by
  cases a <;> rfl

theorem rank_neg (hx : a.rank = some x) : (-a).rank = some (-x) := by
  cases a with
  | nan => cases hx
  | infinite s =>
    cases s <;> cases hx
    · rfl
    · exact congrArg some (Int.neg_neg _).symm
  | finite s m fits =>
    cases s <;> cases hx
    · rfl
    · exact congrArg some (Int.neg_neg _).symm

theorem sub_le_sub (hac : a ≤ c) (hdb : d ≤ b) (hb : b.isFinite = true) (hd : d.isFinite = true) :
    a - b ≤ c - d := by
  obtain ⟨y, y', hy, hy', hyy⟩ := hdb
  have hneg : -b ≤ -d := le_of_rank (rank_neg hy') (rank_neg hy) (Int.neg_le_neg hyy)
  exact add_le_add hac hneg (isFinite_neg.trans hb) (isFinite_neg.trans hd)

/-- The sign of zero has no part in the order. -/
theorem rank_quotient_signed (s : Bool) (m num den : Nat) :
    (quotient s (m * num) den : Binary f).rank = some (rankNear f (signed s m * num) den) := by
  rw [rank_quotient, rankNear]
  cases s with
  | false =>
    have hprod : ¬ (m : Int) * num < 0 := not_lt.2 (by positivity)
    simp [signed, Int.natAbs_mul, hprod]
  | true =>
    rcases Nat.eq_zero_or_pos (m * num) with hzero | hpos
    · have hprod : (m : Int) * num = 0 := by exact_mod_cast hzero
      simp [signed, hzero, hprod]
    · have hprod : (0 : Int) < m * num := by exact_mod_cast hpos
      simp [signed, Int.natAbs_mul, hprod]

variable {n : Nat} {fits : f.Fits n}

theorem rank_div (hn : 0 < n) (ha : a.isFinite = true) (hx : a.rank = some x) :
    (a / finite false n fits).rank = some (rankNear f (x * f.one) n) := by
  cases a with
  | nan => cases ha
  | infinite s => cases ha
  | finite s m fits' =>
    cases hx
    change (div (.finite s m fits') (.finite false n fits)).rank = _
    rw [div, if_neg hn.ne', Bool.bne_false, rank_quotient_signed]

theorem infinite_div (s : Bool) : infinite s / finite false n fits = infinite s := by
  change div (.infinite s) (.finite false n fits) = _
  rw [div, Bool.bne_false]

theorem div_le_div_right (hn : 0 < n) (hac : a ≤ c) :
    a / finite false n fits ≤ c / finite false n fits := by
  apply map_le_map hac infinite_div infinite_div (fun a x ↦ rank_div hn) (fun a x ↦ rank_div hn)
  intro x x' hxx
  exact rankNear_mono (Int.mul_le_mul_of_nonneg_right hxx (Int.natCast_nonneg _))

theorem floorNat_le (top : Nat) (a : Binary f) : a.floorNat top ≤ top := by
  cases a with
  | nan => exact Nat.zero_le top
  | infinite s => cases s <;> simp [floorNat]
  | finite s m fits => cases s <;> simp [floorNat]

theorem floorNat_eq (top : Nat) (ha : a.isFinite = true) (hx : a.rank = some x) :
    a.floorNat top = min top (x.toNat / f.one) := by
  cases a with
  | nan => cases ha
  | infinite s => cases ha
  | finite s m fits => cases s <;> cases hx <;> simp [floorNat, signed]

theorem floorNat_mono (top : Nat) (hac : a ≤ c) : a.floorNat top ≤ c.floorNat top := by
  obtain ⟨x, x', hx, hx', hxx⟩ := hac
  cases a with
  | nan => cases hx
  | infinite s =>
    cases s with
    | true => exact Nat.zero_le _
    | false =>
      obtain rfl : c = infinite false := eq_infinite_of_le hx' (by cases hx; exact hxx)
      exact Nat.le_refl _
  | finite s m fits' =>
    cases c with
    | nan => cases hx'
    | infinite t =>
      cases t with
      | false => exact floorNat_le top _
      | true =>
        have hlow := (rank_bounds_of_isFinite rfl hx).1
        cases hx'
        exact absurd hxx (not_le.2 hlow)
    | finite t n' fits'' =>
      rw [floorNat_eq top rfl hx, floorNat_eq top rfl hx']
      have hdiv : x.toNat / f.one ≤ x'.toNat / f.one := Nat.div_le_div_right (by omega)
      omega

theorem lt_of_lt_of_le (hba : b.lt a = true) (hac : a ≤ c) : b.lt c = true := by
  obtain ⟨x, x', hx, hx', hxx⟩ := hac
  unfold lt at hba ⊢
  rw [hx] at hba
  rw [hx']
  split at hba
  · next y z hy hz =>
    cases hz
    simp only [hy, decide_eq_true_eq] at hba ⊢
    omega
  · cases hba

theorem rank_max (hx : a.rank = some x) (hy : b.rank = some y) :
    (a.max b).rank = some (Max.max x y) := by
  simp only [Binary.max, hx, hy]
  split
  · next h => rw [hy, Int.max_eq_right h]
  · next h => rw [hx, Int.max_eq_left (by omega)]

theorem max_le_max (hac : a ≤ c) (hbd : b ≤ d) : a.max b ≤ c.max d := by
  obtain ⟨x, x', hx, hx', hxx⟩ := hac
  obtain ⟨y, y', hy, hy', hyy⟩ := hbd
  exact le_of_rank (rank_max hx hy) (rank_max hx' hy') (by omega)

end AdaptiveRate.Number.Binary
