import AdaptiveRate.Proofs.Decision

namespace AdaptiveRate.LossThresholds

variable {t : LossThresholds} {top current loss : UInt8}

def Overruns (t : LossThresholds) (top current loss : UInt8) : Prop :=
  (top = 255 ∧ current = 255) ∧
    t.reduceBelow ≤ loss ∧ t.keepBelow ≤ loss ∧ loss < t.increaseBelow

instance (t : LossThresholds) (top current loss : UInt8) :
    Decidable (t.Overruns top current loss) :=
  inferInstanceAs (Decidable (_ ∧ _))

theorem clamped_eq_last_iff (current : UInt8) (htop : 1 ≤ top) :
    (if current < 1 then 1 else if top < current then top else current : UInt8) = 255 ↔
      top = 255 ∧ current = 255 := by
  have hbyte : (255 : UInt8).toNat = 255 := rfl
  have htop_lt := top.toNat_lt
  have hcurrent_lt := current.toNat_lt
  rw [← UInt8.toNat_inj, ← UInt8.toNat_inj, ← UInt8.toNat_inj, toNat_clamped current htop, hbyte]
  omega

theorem transmissions_eq_overflow_iff (htop : 1 ≤ top) :
    t.transmissions top current loss = .error .overflow ↔ t.Overruns top current loss := by
  unfold transmissions Overruns
  rw [if_neg (UInt8.not_lt.2 htop), ← clamped_eq_last_iff current htop, ← UInt8.not_lt,
    ← UInt8.not_lt]
  dsimp only
  generalize (if current < 1 then 1 else if top < current then top else current) = m
  by_cases hreduce : loss < t.reduceBelow
  · simp [hreduce]
  · by_cases hkeep : loss < t.keepBelow
    · simp [hreduce, hkeep]
    · by_cases hincrease : loss < t.increaseBelow
      · by_cases hlast : m = 255 <;> simp [hreduce, hkeep, hincrease, hlast]
      · simp [hreduce, hkeep, hincrease]

theorem error_of_transmissions (htop : 1 ≤ top) {c : Crash}
    (h : t.transmissions top current loss = .error c) : c = .overflow := by
  unfold transmissions at h
  rw [if_neg (UInt8.not_lt.2 htop)] at h
  dsimp only at h
  generalize (if current < 1 then 1 else if top < current then top else current) = m at h
  split at h
  · cases h
  · split at h
    · cases h
    · split at h
      · split at h
        · cases h
          rfl
        · cases h
      · cases h

/-- There is an answer, and it is between one and the maximum, but for the last number of a byte. -/
theorem transmissions_in_bounds_iff (t : LossThresholds) (htop : 1 ≤ top) (current loss : UInt8) :
    ((∃ n, t.transmissions top current loss = .ok n ∧ 1 ≤ n ∧ n ≤ top) ↔
      ¬ t.Overruns top current loss) ∧
    (t.transmissions top current loss = .error .overflow ↔ t.Overruns top current loss) := by
  have hoverflow : t.transmissions top current loss = .error .overflow ↔ _ :=
    transmissions_eq_overflow_iff htop
  refine ⟨?_, hoverflow⟩
  rw [← hoverflow]
  constructor
  · rintro ⟨n, hn, -⟩ herror
    rw [hn] at herror
    cases herror
  · intro hno
    cases hn : t.transmissions top current loss with
    | ok n => exact ⟨n, rfl, transmissions_bounds hn⟩
    | error c =>
      obtain rfl := error_of_transmissions htop hn
      exact absurd hn hno

theorem transmissions_in_bounds_penultimate : ¬ ({} : LossThresholds).Overruns 255 254 20 ∧
    ∃ n, ({} : LossThresholds).transmissions 255 254 20 = .ok n ∧ 1 ≤ n ∧ n ≤ 255 := by
  have hfits : ¬ ({} : LossThresholds).Overruns 255 254 20 := by decide
  exact ⟨hfits, (transmissions_in_bounds_iff {} (by decide) 254 20).1.2 hfits⟩

/-- A loss of a fifth, with as many transmissions in use as a byte counts, has no answer. -/
theorem transmissions_overrun : (1 : UInt8) ≤ 255 ∧
    ({} : LossThresholds).transmissions 255 255 20 = .error .overflow ∧
    ¬ ∃ n, ({} : LossThresholds).transmissions 255 255 20 = .ok n ∧ 1 ≤ n ∧ n ≤ 255 := by
  have herror : ({} : LossThresholds).transmissions 255 255 20 = .error .overflow := rfl
  refine ⟨by decide, herror, ?_⟩
  rintro ⟨n, hn, -⟩
  rw [herror] at hn
  cases hn

end AdaptiveRate.LossThresholds
