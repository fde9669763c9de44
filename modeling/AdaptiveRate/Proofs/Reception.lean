import AdaptiveRate.Proofs.Loss

namespace AdaptiveRate.Window

open AdaptiveRate.Number

variable {frames frames' before after : List Frame} {f : Frame}

theorem expectedCount_pos (frames : List Frame) : 0 < expectedCount frames := Nat.succ_pos _

theorem missingCount_le (frames : List Frame) : missingCount frames ≤ expectedCount frames :=
  Nat.sub_le _ _

theorem toNat_lossPercentage_eq_share (h : frames ≠ []) : (lossPercentage frames).toNat =
    (2 * Format.double.share (missingCount frames) (expectedCount frames) + Format.double.one) /
      (2 * Format.double.one) := by
  obtain ⟨hloss, hlt⟩ := lossPercentage_eq h
  rw [hloss, toNat_percentage (expectedCount_pos frames) (missingCount_le frames) hlt]

theorem lossPercentage_le_hundred (h : frames ≠ []) : lossPercentage frames ≤ 100 := by
  have hunit : Format.double.Fits Format.double.one := by decide +kernel
  have hhundred : Format.double.Fits (100 * Format.double.one) := by decide +kernel
  have hshare := Format.double.share_le hunit hhundred (expectedCount_pos frames)
    (missingCount_le frames)
  have hone := Format.double.one_pos
  have hbyte : (100 : UInt8).toNat = 100 := rfl
  rw [UInt8.le_iff_toNat_le, toNat_lossPercentage_eq_share h, hbyte,
    Nat.div_le_iff_le_mul (by omega)]
  omega

theorem lossPercentage_le_of_share_le (h : frames ≠ []) (h' : frames' ≠ [])
    (hshare : missingCount frames' * expectedCount frames ≤
      missingCount frames * expectedCount frames') :
    lossPercentage frames' ≤ lossPercentage frames := by
  have hround := Format.double.share_mono (expectedCount_pos frames') (expectedCount_pos frames)
    hshare
  rw [UInt8.le_iff_toNat_le, toNat_lossPercentage_eq_share h, toNat_lossPercentage_eq_share h']
  exact Nat.div_le_div_right (by omega)

/-- The counter of the frame is among those expected, or next to them. -/
def Adjoins (frames : List Frame) (f : Frame) : Prop :=
  ∃ lo hi, (counters frames).min? = some lo ∧ (counters frames).max? = some hi ∧
    (lo ≤ f.counter.toNat ∧ f.counter.toNat ≤ hi ∨
      f.counter.toNat = hi + 1 ∨ f.counter.toNat + 1 = lo)

theorem Adjoins.ne_nil (h : Adjoins frames f) : frames ≠ [] := by
  rintro rfl
  obtain ⟨lo, hi, hlo, -⟩ := h
  cases hlo

theorem mem_counters_of_perm (hperm : frames'.Perm (f :: frames)) {n : Nat} :
    n ∈ counters frames' ↔ n = f.counter.toNat ∨ n ∈ counters frames := by
  rw [counters, (hperm.map _).mem_iff, List.map_cons, List.mem_cons]
  rfl

theorem min?_counters_of_perm (hperm : frames'.Perm (f :: frames)) {lo : Nat}
    (hlo : (counters frames).min? = some lo) :
    (counters frames').min? = some (min lo f.counter.toNat) := by
  rw [List.min?_eq_some_iff] at hlo ⊢
  obtain ⟨hmem, hleast⟩ := hlo
  refine ⟨?_, fun n hn ↦ ?_⟩
  · rw [mem_counters_of_perm hperm]
    rcases Nat.le_total lo f.counter.toNat with hle | hge
    · rw [Nat.min_eq_left hle]
      exact .inr hmem
    · exact .inl (Nat.min_eq_right hge)
  · rcases (mem_counters_of_perm hperm).1 hn with rfl | hold
    · exact Nat.min_le_right _ _
    · exact (Nat.min_le_left _ _).trans (hleast n hold)

theorem max?_counters_of_perm (hperm : frames'.Perm (f :: frames)) {hi : Nat}
    (hhi : (counters frames).max? = some hi) :
    (counters frames').max? = some (max hi f.counter.toNat) := by
  rw [List.max?_eq_some_iff] at hhi ⊢
  obtain ⟨hmem, hgreatest⟩ := hhi
  refine ⟨?_, fun n hn ↦ ?_⟩
  · rw [mem_counters_of_perm hperm]
    rcases Nat.le_total f.counter.toNat hi with hle | hge
    · rw [Nat.max_eq_left hle]
      exact .inr hmem
    · exact .inl (Nat.max_eq_right hge)
  · rcases (mem_counters_of_perm hperm).1 hn with rfl | hold
    · exact Nat.le_max_right _ _
    · exact (hgreatest n hold).trans (Nat.le_max_left _ _)

/-- The span grows by the place of the frame or not at all. -/
theorem Adjoins.expectedCount_eq (h : Adjoins frames f) (hperm : frames'.Perm (f :: frames)) :
    expectedCount frames' = expectedCount frames ∨
      expectedCount frames' = expectedCount frames + 1 := by
  obtain ⟨lo, hi, hlo, hhi, hplace⟩ := h
  have hle : lo ≤ hi := (List.max?_eq_some_iff.1 hhi).2 lo (List.min?_eq_some_iff.1 hlo).1
  simp only [expectedCount, hlo, hhi, min?_counters_of_perm hperm hlo,
    max?_counters_of_perm hperm hhi, Option.getD_some]
  omega

theorem Adjoins.share_le (h : Adjoins frames f) (hperm : frames'.Perm (f :: frames)) :
    missingCount frames' * expectedCount frames ≤ missingCount frames * expectedCount frames' := by
  have hlen : frames'.length = frames.length + 1 := hperm.length_eq
  rcases h.expectedCount_eq hperm with hsame | hlonger
  · have hmissing : missingCount frames' ≤ missingCount frames := by
      unfold missingCount
      omega
    rw [hsame]
    exact Nat.mul_le_mul_right _ hmissing
  · have hmissing : missingCount frames' = missingCount frames := by
      unfold missingCount
      omega
    rw [hmissing, hlonger]
    exact Nat.mul_le_mul_left _ (Nat.le_succ _)

/-- A frame that opens no gap may come in anywhere, and the rest of the window in any order. -/
theorem lossPercentage_insert_le (h : Adjoins frames f) (hperm : (before ++ after).Perm frames) :
    lossPercentage (before ++ f :: after) ≤ lossPercentage frames ∧
      lossPercentage frames ≤ 100 := by
  have hlonger : (before ++ f :: after).Perm (f :: frames) :=
    List.perm_middle.trans (hperm.cons f)
  refine ⟨lossPercentage_le_of_share_le h.ne_nil ?_ (h.share_le hlonger),
    lossPercentage_le_hundred h.ne_nil⟩
  exact List.append_ne_nil_of_right_ne_nil _ (List.cons_ne_nil _ _)

theorem lossPercentage_insert_le_gappy : Adjoins gappy ⟨40, .zero false, 1⟩ ∧
    lossPercentage (gappy.drop 5 ++ ⟨40, .zero false, 1⟩ :: gappy.take 5) ≤ lossPercentage gappy ∧
      lossPercentage gappy ≤ 100 := by
  have hadjoins : Adjoins gappy ⟨40, .zero false, 1⟩ :=
    ⟨0, 39, by decide +kernel, by decide +kernel, .inr (.inl rfl)⟩
  have hperm : (gappy.drop 5 ++ gappy.take 5).Perm gappy := by
    have hcut : (gappy.take 5 ++ gappy.drop 5).Perm gappy := .of_eq (List.take_append_drop 5 gappy)
    exact List.perm_append_comm.trans hcut
  exact ⟨hadjoins, lossPercentage_insert_le hadjoins hperm⟩

end AdaptiveRate.Window
