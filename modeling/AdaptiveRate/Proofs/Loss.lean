import AdaptiveRate.Proofs.Number.Exact
import AdaptiveRate.Proofs.Range
import AdaptiveRate.Window

namespace AdaptiveRate

open AdaptiveRate.Number

namespace Number.Format

variable (f : Format) {m e : Nat}

/-- A share times one hundred, rounded after the division and after the product. -/
def share (m e : Nat) : Nat := f.round (f.round (m * f.one) e * 100) 1

theorem share_mono {m' e' : Nat} (he : 0 < e) (he' : 0 < e') (h : m * e' ≤ m' * e) :
    f.share m e ≤ f.share m' e' := by
  have hround : f.round (m * f.one) e ≤ f.round (m' * f.one) e' := by
    apply f.round_le_round he he'
    rw [Nat.mul_right_comm, Nat.mul_right_comm m']
    exact Nat.mul_le_mul_right _ h
  exact f.round_mono (Nat.mul_le_mul_right _ hround)

theorem share_congr {m' e' : Nat} (he : 0 < e) (he' : 0 < e') (h : m * e' = m' * e) :
    f.share m e = f.share m' e' :=
  Nat.le_antisymm (f.share_mono he he' h.le) (f.share_mono he' he h.ge)

theorem round_one_le (hfits : f.Fits f.one) (he : 0 < e) (hle : m ≤ e) :
    f.round (m * f.one) e ≤ f.one := by
  calc f.round (m * f.one) e ≤ f.round (f.one * e) e := by
        apply f.round_mono
        rw [Nat.mul_comm f.one]
        exact Nat.mul_le_mul_right _ hle
    _ = f.one := f.round_mul he hfits.1

theorem share_le (hfits : f.Fits f.one) (hfits' : f.Fits (100 * f.one)) (he : 0 < e) (hle : m ≤ e) :
    f.share m e ≤ 100 * f.one := by
  calc f.share m e ≤ f.round (100 * f.one * 1) 1 := by
        apply f.round_mono
        rw [Nat.mul_one, Nat.mul_comm]
        exact Nat.mul_le_mul_left _ (f.round_one_le hfits he hle)
    _ = 100 * f.one := f.round_mul Nat.one_pos hfits'.1

/-- Two roundings move a percentage by a small part of it. -/
theorem abs_share_sub_le (he : 0 < e) (hnormal : 2 ^ (f.precision - 1) * e ≤ m * f.one) :
    |(f.share m e : ℚ) - 100 * ((m * f.one : ℕ) / e)| ≤
      300 * ((m * f.one : ℕ) / e) / 2 ^ f.precision := by
  have hquot := f.abs_round_sub_le he hnormal
  rw [share]
  generalize hq : f.round (m * f.one) e = q at hquot ⊢
  have hqnormal : 2 ^ (f.precision - 1) ≤ q := by
    rw [← hq, ← f.round_two_pow he (f.precision - 1)]
    exact f.round_mono hnormal
  have hproduct : |(f.round (q * 100) 1 : ℚ) - (q * 100 : ℕ) / (1 : ℕ)| ≤
      (q * 100 : ℕ) / (1 : ℕ) / 2 ^ f.precision := f.abs_round_sub_le Nat.one_pos (by omega)
  have hexact : (0 : ℚ) ≤ (m * f.one : ℕ) / e := by positivity
  generalize ((m * f.one : ℕ) / e : ℚ) = a at hquot hexact ⊢
  have hpart : (2 ^ f.precision : ℚ)⁻¹ ≤ 1 := inv_le_one_of_one_le₀ (one_le_pow₀ (by norm_num))
  have hpos : (0 : ℚ) ≤ (2 ^ f.precision : ℚ)⁻¹ := by positivity
  simp only [div_eq_mul_inv, Nat.cast_mul, Nat.cast_ofNat, Nat.cast_one, inv_one, mul_one] at *
  generalize (2 ^ f.precision : ℚ)⁻¹ = part at *
  rw [abs_le] at hquot hproduct ⊢
  have hsmall : a * part ≤ a := mul_le_of_le_one_right hexact hpart
  have hless : q * part ≤ 2 * a * part := mul_le_mul_of_nonneg_right (by linarith) hpos
  constructor <;> linarith

/-- With room for the denominator in the precision, the error of a percentage is less than a quarter
of what one more missing frame would change. -/
theorem share_error_lt {bits : Nat} (hscale : f.precision - 1 + bits ≤ f.scale)
    (hwide : 1200 * 2 ^ bits < 2 ^ f.precision) (he : 0 < e) (hm : 0 < m) (hle : m ≤ e)
    (hlt : e ≤ 2 ^ bits) : 4 * (e * f.share m e) < (400 * m + 1) * f.one ∧
      400 * m * f.one < 4 * (e * f.share m e) + f.one := by
  have hnormal : 2 ^ (f.precision - 1) * e ≤ m * f.one := by
    calc 2 ^ (f.precision - 1) * e ≤ 2 ^ (f.precision - 1) * 2 ^ bits := Nat.mul_le_mul_left _ hlt
      _ = 2 ^ (f.precision - 1 + bits) := (Nat.pow_add ..).symm
      _ ≤ 2 ^ f.scale := Nat.pow_le_pow_right (by decide) hscale
      _ ≤ m * 2 ^ f.scale := Nat.le_mul_of_pos_left _ hm
  have herror := f.abs_share_sub_le he hnormal
  have hone : (0 : ℚ) < f.one := Nat.cast_pos.2 f.one_pos
  have he : (0 : ℚ) < e := Nat.cast_pos.2 he
  have hpart : (300 * m : ℚ) / 2 ^ f.precision < 1 / 4 := by
    rw [div_lt_iff₀ (by positivity)]
    have hsmall : 1200 * m < 2 ^ f.precision :=
      lt_of_le_of_lt (Nat.mul_le_mul_left _ (hle.trans hlt)) hwide
    have hcast : (1200 * m : ℚ) < 2 ^ f.precision := by exact_mod_cast hsmall
    linarith
  have hless : e * |(f.share m e : ℚ) - 100 * ((m * f.one : ℕ) / e)| < f.one / 4 := by
    calc e * |(f.share m e : ℚ) - 100 * ((m * f.one : ℕ) / e)|
        ≤ e * (300 * ((m * f.one : ℕ) / e) / 2 ^ f.precision) :=
          mul_le_mul_of_nonneg_left herror he.le
      _ = 300 * m / 2 ^ f.precision * f.one := by
          push_cast
          field_simp
      _ < 1 / 4 * f.one := mul_lt_mul_of_pos_right hpart hone
      _ = f.one / 4 := by ring
  rw [← abs_of_pos he, ← abs_mul, abs_of_pos he, mul_sub, abs_lt] at hless
  have hcancel : e * (100 * ((m * f.one : ℕ) / e : ℚ)) = 100 * m * f.one := by
    push_cast
    field_simp
  rw [hcancel] at hless
  constructor
  · suffices (4 * (e * f.share m e) : ℚ) < (400 * m + 1) * f.one by exact_mod_cast this
    linarith
  · suffices (400 * m * f.one : ℚ) < 4 * (e * f.share m e) + f.one by exact_mod_cast this
    linarith

end Number.Format

namespace Number.Binary

variable {f : Format} {m e : Nat}

theorem roundNat_le (top : Nat) (a : Binary f) : a.roundNat top ≤ top := by
  cases a with
  | nan => exact Nat.zero_le top
  | infinite s => cases s <;> simp [roundNat]
  | finite s m fits => cases s <;> simp [roundNat]

theorem roundNat_share (hwidth : f.precision + f.scale < f.width) (hhundred : 100 ≤ 2 ^ f.precision)
    (he : 0 < e) (hle : m ≤ e) (hlt : e ≤ 2 ^ f.precision) :
    (ofNat m / ofNat e * ofNat 100 : Binary f).roundNat 255 =
      (2 * f.share m e + f.one) / (2 * f.one) := by
  have hone := f.one_pos
  have hunit : f.Fits f.one := by
    simpa using f.fits_mul_one (Nat.one_le_two_pow (n := f.precision)) hwidth
  have hfits := f.fits_mul_one hhundred hwidth
  have hquot : f.round (m * f.one * f.one) (e * f.one) = f.round (m * f.one) e := by
    rw [Nat.mul_comm _ f.one, Nat.mul_comm e, f.round_mul_mul hone]
  have hproduct : f.round (f.round (m * f.one) e * (100 * f.one)) f.one = f.share m e := by
    have hscaled : f.round (f.one * (f.round (m * f.one) e * 100)) (f.one * 1) = f.share m e :=
      f.round_mul_mul hone
    rw [← hscaled, Nat.mul_one]
    congr 1
    ring
  have hshare := f.share_le hunit hfits he hle
  rw [ofNat_eq (f.fits_mul_one (hle.trans hlt) hwidth), ofNat_eq (f.fits_mul_one hlt hwidth),
    ofNat_eq hfits, finite_div_finite (Nat.mul_pos he hone), quotient_eq_of_fits hquot
      (f.fits_round ((f.round_one_le hunit he hle).trans_lt hunit.2)), finite_mul_finite,
    quotient_eq_of_fits hproduct (f.fits_round (hshare.trans_lt hfits.2))]
  have hbound : (2 * f.share m e + f.one) / (2 * f.one) ≤ 100 := by
    rw [Nat.div_le_iff_le_mul (by omega)]
    omega
  simp only [roundNat, Bool.false_eq_true, if_false]
  omega

end Number.Binary

namespace Window

def roundedShare (missing expected : Nat) : Nat := (200 * missing + expected) / (2 * expected)

/-- The whole parts of the halves that come out short in double precision. -/
def shortHalves : List Nat := [14, 28, 56, 57]

def FallsShort (missing expected : Nat) : Prop :=
  ∃ n ∈ shortHalves, 200 * missing = (2 * n + 1) * expected

instance (missing expected : Nat) : Decidable (FallsShort missing expected) :=
  inferInstanceAs (Decidable (∃ n ∈ shortHalves, _))

def counters (frames : List Frame) : List Nat := frames.map (·.counter.toNat)

def expectedCount (frames : List Frame) : Nat :=
  (counters frames).max?.getD 0 - (counters frames).min?.getD 0 + 1

def missingCount (frames : List Frame) : Nat := expectedCount frames - frames.length

variable {missing expected : Nat}

theorem toNat_percentage (hpos : 0 < expected) (hle : missing ≤ expected)
    (hlt : expected ≤ 2 ^ 32) : (percentage missing expected).toNat =
      (2 * Format.double.share missing expected + Format.double.one) / (2 * Format.double.one) := by
  have hround : (Binary.ofNat missing / Binary.ofNat expected * Binary.ofNat 100 : Double).roundNat
      255 = _ := Binary.roundNat_share (by decide) (by decide) hpos hle (hlt.trans (by decide))
  have htop := Binary.roundNat_le 255
    (Binary.ofNat missing / Binary.ofNat expected * Binary.ofNat 100 : Double)
  rw [percentage, UInt8.toNat_ofNat', Nat.mod_eq_of_lt (by omega), hround]

theorem percentage_congr {missing' expected' : Nat} (hpos : 0 < expected) (hle : missing ≤ expected)
    (hlt : expected ≤ 2 ^ 32) (hpos' : 0 < expected') (hle' : missing' ≤ expected')
    (hlt' : expected' ≤ 2 ^ 32) (h : missing * expected' = missing' * expected) :
    percentage missing expected = percentage missing' expected' := by
  rw [← UInt8.toNat_inj, toNat_percentage hpos hle hlt, toNat_percentage hpos' hle' hlt',
    Format.double.share_congr hpos hpos' h]

theorem percentage_half : ∀ n < 100, (percentage (2 * n + 1) 200).toNat =
    if n ∈ shortHalves then n else n + 1 := by
  decide +kernel

theorem percentage_of_half {n : Nat} (hpos : 0 < expected) (hle : missing ≤ expected)
    (hlt : expected ≤ 2 ^ 32) (h : 200 * missing = (2 * n + 1) * expected) :
    (percentage missing expected).toNat = if n ∈ shortHalves then n else n + 1 := by
  have hn : 2 * n + 1 ≤ 200 := by
    apply Nat.le_of_mul_le_mul_right _ hpos
    omega
  have hcongr := percentage_congr hpos hle hlt (by decide) hn (by decide)
    (by rw [Nat.mul_comm, h] : missing * 200 = (2 * n + 1) * expected)
  rw [hcongr, percentage_half n (by omega)]

theorem roundedShare_of_half {n : Nat} (hpos : 0 < expected)
    (h : 200 * missing = (2 * n + 1) * expected) : roundedShare missing expected = n + 1 := by
  have hnum : 200 * missing + expected = (n + 1) * (2 * expected) := by
    rw [h]
    ring
  rw [roundedShare, hnum, Nat.mul_div_cancel _ (by omega)]

theorem fallsShort_iff {n : Nat} (hpos : 0 < expected)
    (h : 200 * missing = (2 * n + 1) * expected) :
    FallsShort missing expected ↔ n ∈ shortHalves := by
  constructor
  · rintro ⟨k, hmem, hk⟩
    have heq := Nat.mul_right_cancel hpos (hk.symm.trans h)
    rwa [show n = k by omega]
  · exact fun hmem ↦ ⟨n, hmem, h⟩

/-- Off a half, what is less than a quarter of a frame from the percentage is rounded like it. -/
theorem rounded_eq_roundedShare {s unit : Nat} (hunit : 0 < unit) (hpos : 0 < expected)
    (hupper : 4 * (expected * s) < (400 * missing + 1) * unit)
    (hlower : 400 * missing * unit < 4 * (expected * s) + unit)
    (hhalf : ∀ n, 200 * missing ≠ (2 * n + 1) * expected) :
    (2 * s + unit) / (2 * unit) = roundedShare missing expected := by
  rw [roundedShare]
  generalize hn : (200 * missing + expected) / (2 * expected) = n
  have hnlow : n * (2 * expected) ≤ 200 * missing + expected := by
    rw [← hn]
    exact Nat.div_mul_le_self _ _
  have hnupp : 200 * missing + expected < (n + 1) * (2 * expected) := by
    rw [← hn]
    exact Nat.lt_mul_of_div_lt (Nat.lt_succ_self _) (by omega)
  -- The exact share keeps one part in two hundred of a frame from the halves next to it.
  apply Nat.div_eq_of_lt_le
  · cases n with
    | zero => omega
    | succ k =>
      have habove : (2 * k + 1) * expected + 1 ≤ 200 * missing :=
        Nat.lt_of_le_of_ne (by linarith) (hhalf k).symm
      have hscaled := Nat.mul_le_mul_right (2 * unit) habove
      have hless : 2 * expected * ((2 * k + 1) * unit) ≤ 2 * expected * (2 * s) := by linarith
      have hcancel := Nat.le_of_mul_le_mul_left hless (by omega)
      linarith
  · have hbelow : 200 * missing + 1 ≤ (2 * n + 1) * expected :=
      Nat.lt_of_le_of_ne (by linarith) (hhalf n)
    have hscaled := Nat.mul_le_mul_right (2 * unit) hbelow
    have hless : 2 * expected * (2 * s) < 2 * expected * ((2 * n + 1) * unit) := by linarith
    have hcancel := Nat.lt_of_mul_lt_mul_left hless
    linarith

theorem percentage_of_not_half (hpos : 0 < expected) (hle : missing ≤ expected)
    (hlt : expected ≤ 2 ^ 32) (hhalf : ∀ n, 200 * missing ≠ (2 * n + 1) * expected) :
    (percentage missing expected).toNat = roundedShare missing expected := by
  rw [toNat_percentage hpos hle hlt]
  rcases Nat.eq_zero_or_pos missing with rfl | hmissing
  · have hone := Format.double.one_pos
    have hzero : Format.double.share 0 expected = 0 := by
      rw [Format.share, Nat.zero_mul, Format.round_zero_left, Nat.zero_mul, Format.round_zero_left]
    rw [hzero, roundedShare, Nat.div_eq_of_lt, Nat.div_eq_of_lt] <;> omega
  · obtain ⟨hupper, hlower⟩ := Format.double.share_error_lt (by decide) (by decide) hpos hmissing
      hle hlt
    exact rounded_eq_roundedShare Format.double.one_pos hpos hupper hlower hhalf

def widen (bounds : UInt32 × UInt32) (f : Frame) : UInt32 × UInt32 :=
  (min bounds.1 f.counter, max bounds.2 f.counter)

theorem span_cons (f : Frame) (fs : List Frame) :
    span (f :: fs) = some (fs.foldl widen (f.counter, f.counter)) := by
  rw [span, List.foldl_map]
  exact List.foldl_hom some (fun _ _ ↦ rfl)

theorem toNat_foldl_widen (fs : List Frame) (bounds : UInt32 × UInt32) :
    (fs.foldl widen bounds).1.toNat =
      fs.foldl (fun n g ↦ min n g.counter.toNat) bounds.1.toNat ∧
    (fs.foldl widen bounds).2.toNat =
      fs.foldl (fun n g ↦ max n g.counter.toNat) bounds.2.toNat := by
  induction fs generalizing bounds with
  | nil => exact ⟨rfl, rfl⟩
  | cons f fs ih =>
    simp only [List.foldl_cons]
    rw [(ih _).1, (ih _).2, widen, UInt32.toNat_min, UInt32.toNat_max]
    exact ⟨rfl, rfl⟩

theorem min?_max?_of_span {frames : List Frame} {lo hi : UInt32} (h : span frames = some (lo, hi)) :
    (counters frames).min? = some lo.toNat ∧ (counters frames).max? = some hi.toNat := by
  cases frames with
  | nil => cases h
  | cons f fs =>
    rw [span_cons, Option.some_inj] at h
    rw [counters, List.map_cons, List.min?_cons', List.max?_cons', List.foldl_map, List.foldl_map]
    obtain ⟨hleast, hgreatest⟩ := toNat_foldl_widen fs (f.counter, f.counter)
    exact ⟨congrArg some (hleast.symm.trans (by rw [h])),
      congrArg some (hgreatest.symm.trans (by rw [h]))⟩

theorem exists_span {frames : List Frame} (h : frames ≠ []) :
    ∃ lo hi, span frames = some (lo, hi) := by
  obtain ⟨f, fs, rfl⟩ := List.exists_cons_of_ne_nil h
  exact ⟨_, _, span_cons f fs⟩

/-- The loss is the percentage of the expected counters that are missing. -/
theorem lossPercentage_eq {frames : List Frame} (h : frames ≠ []) :
    lossPercentage frames = percentage (missingCount frames) (expectedCount frames) ∧
      expectedCount frames ≤ 2 ^ 32 := by
  obtain ⟨lo, hi, hspan⟩ := exists_span h
  obtain ⟨hmin, hmax⟩ := min?_max?_of_span hspan
  have hdiff := UInt32.toNat_sub_of_le hi lo (span_le hspan)
  have hlt := hi.toNat_lt
  have hexpected : expectedCount frames = (hi - lo).toNat + 1 := by
    rw [expectedCount, hmin, hmax, hdiff]
    rfl
  constructor
  · rw [lossPercentage, hspan, missingCount, hexpected]
  · omega

/-- The loss is the exact percentage with halves going up, but for the halves of 14.5, 28.5, 56.5
and 57.5 percent: there the quotient is rounded down before it is multiplied, and the half is
missed. -/
theorem toNat_lossPercentage {frames : List Frame} (h : frames ≠ []) :
    (lossPercentage frames).toNat =
      if FallsShort (missingCount frames) (expectedCount frames)
      then roundedShare (missingCount frames) (expectedCount frames) - 1
      else roundedShare (missingCount frames) (expectedCount frames) := by
  obtain ⟨hloss, hlt⟩ := lossPercentage_eq h
  have hpos : 0 < expectedCount frames := Nat.succ_pos _
  have hle : missingCount frames ≤ expectedCount frames := Nat.sub_le _ _
  rw [hloss]
  by_cases hhalf : ∃ n, 200 * missingCount frames = (2 * n + 1) * expectedCount frames
  · obtain ⟨n, hn⟩ := hhalf
    rw [roundedShare_of_half hpos hn, percentage_of_half hpos hle hlt hn, Nat.add_sub_cancel]
    exact if_congr (fallsShort_iff hpos hn).symm rfl rfl
  · rw [if_neg fun ⟨n, _, hn⟩ ↦ hhalf ⟨n, hn⟩]
    exact percentage_of_not_half hpos hle hlt (not_exists.1 hhalf)

/-- Of forty counters the first sixteen and the last. -/
def gappy : List Frame :=
  (List.range 16 ++ [39]).map fun n ↦ ⟨.ofNat n, .zero false, 1⟩

theorem toNat_lossPercentage_gappy : gappy ≠ [] ∧ (lossPercentage gappy).toNat = 57 := by
  have hne : gappy ≠ [] := by decide
  refine ⟨hne, (toNat_lossPercentage hne).trans ?_⟩
  decide +kernel

theorem lossPercentage_ne_rounded : gappy ≠ [] ∧ (lossPercentage gappy).toNat = 57 ∧
    roundedShare (missingCount gappy) (expectedCount gappy) = 58 := by
  decide +kernel

end Window

end AdaptiveRate
