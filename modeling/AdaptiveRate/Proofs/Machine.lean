namespace AdaptiveRate.Machine

variable {σ τ ι α : Type}

def run (step : σ → ι → σ × α) (s : σ) : List ι → σ × List α
  | [] => (s, [])
  | i :: rest =>
    let (s, a) := step s i
    let (s, answers) := run step s rest
    (s, a :: answers)

/-- Machines that answer alike as long as fewer than `limit` inputs have come answer alike on runs
of up to `limit` inputs. -/
theorem run_simulates {step : σ → ι → σ × α} {step' : τ → ι → τ × α} {R : Nat → σ → τ → Prop}
    {limit : Nat}
    (hstep : ∀ n s t i, n < limit → R n s t →
      (step s i).2 = (step' t i).2 ∧ R (n + 1) (step s i).1 (step' t i).1)
    (inputs : List ι) {n : Nat} {s : σ} {t : τ} (hn : n + inputs.length ≤ limit) (h : R n s t) :
    (run step s inputs).2 = (run step' t inputs).2 ∧
      R (n + inputs.length) (run step s inputs).1 (run step' t inputs).1 := by
  induction inputs generalizing n s t with
  | nil => exact ⟨rfl, h⟩
  | cons i rest ih =>
    rw [List.length_cons] at hn
    obtain ⟨hanswer, hnext⟩ := hstep n s t i (by omega) h
    obtain ⟨hanswers, hlast⟩ := ih (by omega) hnext
    refine ⟨?_, ?_⟩
    · simp only [run, hanswer, hanswers]
    · rw [List.length_cons, ← Nat.add_assoc, Nat.add_right_comm]
      exact hlast

theorem run_forall {step : σ → ι → σ × α} {R : Nat → σ → Prop} {P : α → Prop} {limit : Nat}
    (hstep : ∀ n s i, n < limit → R n s → P (step s i).2 ∧ R (n + 1) (step s i).1)
    (inputs : List ι) {n : Nat} {s : σ} (hn : n + inputs.length ≤ limit) (h : R n s) :
    (∀ a ∈ (run step s inputs).2, P a) ∧ R (n + inputs.length) (run step s inputs).1 := by
  induction inputs generalizing n s with
  | nil => exact ⟨by simp [run], h⟩
  | cons i rest ih =>
    rw [List.length_cons] at hn
    obtain ⟨hanswer, hnext⟩ := hstep n s i (by omega) h
    obtain ⟨hanswers, hlast⟩ := ih (by omega) hnext
    refine ⟨?_, ?_⟩
    · intro a ha
      rcases List.mem_cons.1 ha with rfl | ha
      · exact hanswer
      · exact hanswers a ha
    · rw [List.length_cons, ← Nat.add_assoc, Nat.add_right_comm]
      exact hlast

end AdaptiveRate.Machine
