import AdaptiveRate.Message
import AdaptiveRate.Proofs.Number.Exact
import AdaptiveRate.Proofs.Number.Order

namespace AdaptiveRate.Number.Binary

variable {f : Format} {a b c : Binary f}

/-- The same number, or both of them none. The two zeros are not told apart. -/
def Alike (a b : Binary f) : Prop := a = b ∨ ∃ s t, a = zero s ∧ b = zero t

theorem Alike.symm (h : a.Alike b) : b.Alike a := by
  rcases h with rfl | ⟨s, t, ha, hb⟩
  · exact .inl rfl
  · exact .inr ⟨t, s, hb, ha⟩

theorem zero_eq_finite (s : Bool) : (zero s : Binary f) = .finite s 0 f.fits_zero :=
  quotient_eq_of_fits (f.round_zero_left 1) f.fits_zero

theorem ne_nan_of_le_right (h : a ≤ b) : b ≠ .nan := by
  obtain ⟨x, y, -, hy, -⟩ := h
  rintro rfl
  cases hy

theorem exists_rank_of_ne_nan (h : a ≠ .nan) : ∃ x, a.rank = some x := by
  cases a with
  | nan => exact absurd rfl h
  | infinite s => exact ⟨_, rfl⟩
  | finite s m fits => exact ⟨_, rfl⟩

theorem le_refl_of_ne_nan (h : a ≠ .nan) : a ≤ a := by
  obtain ⟨x, hx⟩ := exists_rank_of_ne_nan h
  exact le_of_rank hx hx (Int.le_refl x)

theorem le_trans (hab : a ≤ b) (hbc : b ≤ c) : a ≤ c := by
  obtain ⟨x, y, hx, hy, hxy⟩ := hab
  obtain ⟨y', z, hy', hz, hyz⟩ := hbc
  obtain rfl : y = y' := Option.some_inj.1 (hy.symm.trans hy')
  exact le_of_rank hx hz (Int.le_trans hxy hyz)

theorem rank_infinite_ne (s t : Bool) {n : Nat} (fits : f.Fits n) :
    (infinite s : Binary f).rank ≠ (finite t n fits).rank := by
  intro h
  obtain ⟨hlow, hhigh⟩ := rank_bounds_of_isFinite (a := .finite t n fits) rfl h.symm
  cases s with
  | false => exact Int.lt_irrefl _ hhigh
  | true => exact Int.lt_irrefl _ hlow

/-- Only zero has two forms. -/
theorem alike_of_rank_eq (h : a.rank = b.rank) : a.Alike b := by
  have hlimit : 0 < f.limit := Nat.two_pow_pos f.width
  cases a with
  | nan =>
    cases b with
    | nan => exact .inl rfl
    | infinite t => cases h
    | finite t n fits => cases h
  | infinite s =>
    cases b with
    | nan => cases h
    | infinite t =>
      have hsign : signed s f.limit = signed t f.limit := Option.some_inj.1 h
      obtain rfl : s = t := by
        cases s <;> cases t <;> simp [signed] at hsign ⊢ <;> omega
      exact .inl rfl
    | finite t n fits => exact absurd h (rank_infinite_ne s t fits)
  | finite s m fits =>
    cases b with
    | nan => cases h
    | infinite t => exact absurd h.symm (rank_infinite_ne t s fits)
    | finite t n fits' =>
      have hunits : signed s m = signed t n := Option.some_inj.1 h
      by_cases hsame : s = t
      · subst hsame
        obtain rfl : m = n := by
          cases s <;> simpa [signed] using hunits
        exact .inl rfl
      · obtain ⟨rfl, rfl⟩ : m = 0 ∧ n = 0 := by
          cases s <;> cases t <;> simp [signed] at hunits hsame ⊢ <;> omega
        exact .inr ⟨s, t, (zero_eq_finite s).symm, (zero_eq_finite t).symm⟩

theorem alike_of_le_of_le (hab : a ≤ b) (hba : b ≤ a) : a.Alike b := by
  obtain ⟨x, y, hx, hy, hxy⟩ := hab
  obtain ⟨y', x', hy', hx', hyx⟩ := hba
  obtain rfl : y = y' := Option.some_inj.1 (hy.symm.trans hy')
  obtain rfl : x = x' := Option.some_inj.1 (hx.symm.trans hx')
  apply alike_of_rank_eq
  rw [hx, hy, Int.le_antisymm hxy hyx]

theorem max_eq_or (a b : Binary f) : a.max b = a ∨ a.max b = b := by
  unfold Binary.max
  split
  · exact .inr rfl
  · exact .inl rfl
  · split
    · exact .inr rfl
    · exact .inl rfl

theorem le_max_left (ha : a ≠ .nan) : a ≤ a.max b := by
  obtain ⟨x, hx⟩ := exists_rank_of_ne_nan ha
  cases hy : b.rank with
  | none =>
    have hmax : a.max b = a := by rw [Binary.max, hx, hy]
    rw [hmax]
    exact le_refl_of_ne_nan ha
  | some y => exact le_of_rank hx (rank_max hx hy) (Int.le_max_left x y)

theorem le_max_right (hb : b ≠ .nan) : b ≤ a.max b := by
  obtain ⟨y, hy⟩ := exists_rank_of_ne_nan hb
  cases hx : a.rank with
  | none =>
    have hmax : a.max b = b := by rw [Binary.max, hx]
    rw [hmax]
    exact le_refl_of_ne_nan hb
  | some x => exact le_of_rank hy (rank_max hx hy) (Int.le_max_right x y)

end AdaptiveRate.Number.Binary

namespace AdaptiveRate

open AdaptiveRate.Number

namespace Window

/-- The best of some ratios: zero when there are none, otherwise one of them that none of those
which are numbers exceeds. -/
structure Best (ratios : List Single) (x : Single) : Prop where
  of_nil : ratios = [] → x = .zero false
  mem : ratios ≠ [] → x ∈ ratios
  le : ∀ y ∈ ratios, y ≠ .nan → y ≤ x

variable {ratios ratios' : List Single} {x x' : Single}

theorem best_nil : Best [] (.zero false) := ⟨fun _ ↦ rfl, by simp, by simp⟩

theorem best_singleton (x : Single) : Best [x] x where
  of_nil := by simp
  mem := by simp
  le := by
    intro y hy hne
    rw [List.mem_singleton.1 hy] at hne ⊢
    exact Binary.le_refl_of_ne_nan hne

theorem Best.append (h : Best ratios x) (h' : Best ratios' x') (hne : ratios ≠ [])
    (hne' : ratios' ≠ []) : Best (ratios ++ ratios') (x.max x') where
  of_nil := fun hnil ↦ absurd (List.append_eq_nil_iff.1 hnil).1 hne
  mem := by
    intro _
    rw [List.mem_append]
    rcases Binary.max_eq_or x x' with hmax | hmax
    · rw [hmax]
      exact .inl (h.mem hne)
    · rw [hmax]
      exact .inr (h'.mem hne')
  le := by
    intro y hy hnum
    rcases List.mem_append.1 hy with hy | hy
    · have hle := h.le y hy hnum
      exact Binary.le_trans hle (Binary.le_max_left (Binary.ne_nan_of_le_right hle))
    · have hle := h'.le y hy hnum
      exact Binary.le_trans hle (Binary.le_max_right (Binary.ne_nan_of_le_right hle))

theorem Best.nan_iff (h : Best ratios x) : x = .nan ↔ ratios ≠ [] ∧ ∀ y ∈ ratios, y = .nan := by
  constructor
  · rintro rfl
    refine ⟨fun hnil ↦ ?_, fun y hy ↦ ?_⟩
    · have hzero := h.of_nil hnil
      rw [Binary.zero_eq_finite] at hzero
      cases hzero
    · by_contra hnum
      exact Binary.ne_nan_of_le_right (h.le y hy hnum) rfl
  · rintro ⟨hne, hall⟩
    exact hall x (h.mem hne)

/-- Which ratios there are decides on the best of them, and nothing else. -/
theorem Best.alike (h : Best ratios x) (h' : Best ratios' x')
    (hsame : ∀ y, y ∈ ratios ↔ y ∈ ratios') : x.Alike x' := by
  by_cases hnil : ratios = []
  · have hnil' : ratios' = [] := by
      rw [List.eq_nil_iff_forall_not_mem]
      intro y hy
      rw [← hsame, hnil] at hy
      cases hy
    exact .inl ((h.of_nil hnil).trans (h'.of_nil hnil').symm)
  · have hmem : x ∈ ratios' := (hsame x).1 (h.mem hnil)
    have hmem' : x' ∈ ratios := (hsame x').2 (h'.mem (List.ne_nil_of_mem hmem))
    by_cases hnum : x = .nan
    · have hall := (h.nan_iff.1 hnum).2
      exact .inl (hnum.trans (hall x' hmem').symm)
    · have hle := h'.le x hmem hnum
      exact Binary.alike_of_le_of_le hle (h.le x' hmem' (Binary.ne_nan_of_le_right hle))

theorem best_maxOf {groups : List (List Single)} {xs : List Single}
    (h : List.Forall₂ (fun group x ↦ group ≠ [] ∧ Best group x) groups xs) :
    Best groups.flatten (maxOf xs) := by
  cases h with
  | nil => exact best_nil
  | @cons group x groups xs hfirst hrest =>
    obtain ⟨hne, hbest⟩ := hfirst
    rw [List.flatten_cons, maxOf]
    induction hrest generalizing group x with
    | nil => simpa using hbest
    | @cons next y groups ys hnext _ ih =>
      rw [List.flatten_cons, ← List.append_assoc, List.foldl_cons]
      exact ih (by simp [hne]) (hbest.append hnext.2 hne hnext.1)

theorem best_maxOf_self (ratios : List Single) : Best ratios (maxOf ratios) := by
  have hsingle : List.Forall₂ (fun group x ↦ group ≠ [] ∧ Best group x) (ratios.map fun x ↦ [x])
      ratios := by
    rw [List.forall₂_map_left_iff, List.forall₂_same]
    intro x _
    exact ⟨List.cons_ne_nil x [], best_singleton x⟩
  have hbest := best_maxOf hsingle
  rwa [← List.flatMap_def, List.flatMap_singleton'] at hbest

end Window

namespace Uplink

theorem foldl_better (best : Single) (ratios : List Single) :
    ratios.foldl better (some best) = some (ratios.foldl Binary.max best) := by
  induction ratios generalizing best with
  | nil => rfl
  | cons snr ratios ih => exact ih (best.max snr)

theorem bestSnr_eq (m : Uplink) : m.bestSnr = Window.maxOf (m.receptions.map (·.snr)) := by
  unfold bestSnr Window.maxOf
  cases m.receptions.map (·.snr) with
  | nil => rfl
  | cons x xs =>
    have hfold : (x :: xs).foldl better none = some (xs.foldl Binary.max x) := foldl_better x xs
    rw [hfold]

variable {ratios : List Single} {m : Uplink} {frames : List Frame}

theorem best_bestSnr (h : m.receptions.map (·.snr) = ratios) : Window.Best ratios m.bestSnr := by
  rw [bestSnr_eq, h]
  exact Window.best_maxOf_self ratios

theorem best_maxSnr (h : frames.map (·.snr) = ratios) :
    Window.Best ratios (Window.maxSnr frames) := by
  rw [Window.maxSnr, h]
  exact Window.best_maxOf_self ratios

/-- A window of uplinks has the best signal of all the gateways that heard any of them. -/
theorem best_maxSnr_frames {uplinks : List (Uplink × Uplink.Mac)}
    (h : ∀ u ∈ uplinks, u.1.receptions ≠ []) :
    Window.Best (uplinks.flatMap fun u ↦ u.1.receptions.map (·.snr))
      (Window.maxSnr (uplinks.map fun u ↦ u.1.frame u.2)) := by
  rw [List.flatMap_def, Window.maxSnr, List.map_map]
  apply Window.best_maxOf
  rw [List.forall₂_map_left_iff, List.forall₂_map_right_iff, List.forall₂_same]
  intro u hu
  exact ⟨fun hnil ↦ h u hu (List.map_eq_nil_iff.1 hnil), best_bestSnr rfl⟩

/-- Gateways and frames with the same ratios are judged alike, in any order and in groups. -/
theorem bestSnr_alike (hm : m.receptions.map (·.snr) = ratios)
    (hframes : frames.map (·.snr) = ratios) :
    m.bestSnr.Alike (Window.maxSnr frames) ∧
    (ratios = [] → Window.maxSnr frames = .zero false) ∧
    (Window.maxSnr frames = .nan ↔ ratios ≠ [] ∧ ∀ x ∈ ratios, x = .nan) ∧
    (ratios ≠ [] → Window.maxSnr frames ∈ ratios) ∧
    (∀ x ∈ ratios, x ≠ .nan → x ≤ Window.maxSnr frames) ∧
    (∀ m' : Uplink, (m'.receptions.map (·.snr)).Perm ratios → m'.bestSnr.Alike m.bestSnr) ∧
    (∀ frames' : List Frame, (frames'.map (·.snr)).Perm ratios →
      (Window.maxSnr frames').Alike (Window.maxSnr frames)) ∧
    ∀ uplinks : List (Uplink × Uplink.Mac), (∀ u ∈ uplinks, u.1.receptions ≠ []) →
      (Window.maxSnr (uplinks.map fun u ↦ u.1.frame u.2)).Alike
        (Window.maxOf (uplinks.flatMap fun u ↦ u.1.receptions.map (·.snr))) := by
  have hbest := best_maxSnr hframes
  refine ⟨(best_bestSnr hm).alike hbest fun _ ↦ Iff.rfl, hbest.of_nil, hbest.nan_iff, hbest.mem,
    hbest.le, ?_, ?_, ?_⟩
  · intro m' hperm
    exact (best_bestSnr rfl).alike (best_bestSnr hm) fun _ ↦ hperm.mem_iff
  · intro frames' hperm
    exact (best_maxSnr rfl).alike hbest fun _ ↦ hperm.mem_iff
  · intro uplinks hheard
    exact (best_maxSnr_frames hheard).alike (Window.best_maxOf_self _) fun _ ↦ Iff.rfl

def noisyRatios : List Single := [.nan, .zero true, .zero false]

def heardWith (ratios : List Single) : Uplink where
  receptions := ratios.map fun snr ↦ ⟨"gateway", snr, .nan⟩

/-- The sign of the zero that is found depends on the order, and an uplink that no gateway has a
number for does not count. -/
theorem bestSnr_alike_noisy :
    (heardWith noisyRatios).bestSnr.Alike
      (Window.maxSnr (noisyRatios.map fun snr ↦ ⟨7, snr, 1⟩)) ∧
    (Window.maxSnr (noisyRatios.reverse.map fun snr ↦ ⟨7, snr, 1⟩)).Alike
      (Window.maxSnr (noisyRatios.map fun snr ↦ ⟨7, snr, 1⟩)) ∧
    (Window.maxSnr [(heardWith [.nan]).frame ⟨7, true, false⟩,
      (heardWith noisyRatios).frame ⟨8, true, false⟩]).Alike
        (Window.maxOf (.nan :: noisyRatios)) := by
  have hm (ratios : List Single) : (heardWith ratios).receptions.map (·.snr) = ratios := by
    simp [heardWith, Function.comp_def]
  have hframes (ratios : List Single) :
      (ratios.map fun snr ↦ (⟨7, snr, 1⟩ : Frame)).map (·.snr) = ratios := by
    simp [Function.comp_def]
  obtain ⟨hsame, -, -, -, -, -, hperm, hpooled⟩ :=
    bestSnr_alike (hm noisyRatios) (hframes noisyRatios)
  refine ⟨hsame, ?_, ?_⟩
  · apply hperm
    rw [hframes]
    exact List.reverse_perm noisyRatios
  · have halike := hpooled [(heardWith [.nan], ⟨7, true, false⟩),
      (heardWith noisyRatios, ⟨8, true, false⟩)] (by simp [heardWith, noisyRatios])
    rw [List.flatMap_cons, List.flatMap_singleton, hm, hm] at halike
    exact halike

end Uplink

end AdaptiveRate
