import AdaptiveRate.Proofs.Convergence
import Mathlib.Order.Monotone.Basic

namespace Function

/-- Where a function keeps an order that its first step follows, all later steps follow it. -/
theorem iterate_rel_iterate {α : Type} {r : α → α → Prop} [Std.Refl r] [IsTrans α r] {g : α → α}
    (hg : ∀ a b, r a b → r (g a) (g b)) {a : α} (ha : r a (g a)) {i j : Nat} (hij : i ≤ j) :
    r (g^[i] a) (g^[j] a) := by
  have hstep : ∀ n, r (g^[n] a) (g^[n + 1] a) := by
    intro n
    induction n with
    | zero => exact ha
    | succ n ih =>
      rw [iterate_succ_apply', iterate_succ_apply']
      exact hg _ _ ih
  exact Nat.rel_of_forall_rel_succ_of_le r hstep hij

end Function

namespace AdaptiveRate.LossThresholds

variable {t : LossThresholds} {top current current' loss loss' n n' : UInt8}

theorem transmissions_le_of_current_le (hle : current ≤ current')
    (h : t.transmissions top current loss = .ok n)
    (h' : t.transmissions top current' loss = .ok n') : n ≤ n' := by
  rw [UInt8.le_iff_toNat_le] at hle ⊢
  rw [toNat_transmissions h, toNat_transmissions h']
  split
  · omega
  · split
    · omega
    · split <;> omega

/-- A smaller loss is below every threshold that a greater one is below, so it is answered with the
same change or with one that adds less. -/
theorem transmissions_le_of_loss_le (hle : loss ≤ loss')
    (h : t.transmissions top current loss = .ok n)
    (h' : t.transmissions top current loss' = .ok n') : n ≤ n' := by
  have hbelow : ∀ threshold, loss' < threshold → loss < threshold :=
    fun _ hlt ↦ UInt8.lt_of_le_of_lt hle hlt
  have hmost : n.toNat ≤ top.toNat := UInt8.le_iff_toNat_le.1 (transmissions_bounds h).2
  have hnat := toNat_transmissions h
  rw [UInt8.le_iff_toNat_le, toNat_transmissions h']
  by_cases hreduce : loss' < t.reduceBelow
  · rw [if_pos hreduce, hnat, if_pos (hbelow _ hreduce)]
  · rw [if_neg hreduce]
    by_cases hkeep : loss' < t.keepBelow
    · rw [if_pos (hbelow _ hkeep)] at hnat
      rw [if_pos hkeep]
      split at hnat <;> omega
    · rw [if_neg hkeep]
      by_cases hincrease : loss' < t.increaseBelow
      · rw [if_pos (hbelow _ hincrease)] at hnat
        rw [if_pos hincrease]
        split at hnat
        · omega
        · split at hnat <;> omega
      · rw [if_neg hincrease]
        exact hmost

/-- The number of transmissions that answers a loss; without an answer, the number in use. -/
def answer (t : LossThresholds) (top loss current : UInt8) : UInt8 :=
  match t.transmissions top current loss with
  | .ok n => n
  | .error _ => current

section Answered

variable (hpos : 1 ≤ top) (hlt : top < 255)

include hpos hlt

theorem transmissions_eq_answer (t : LossThresholds) (loss current : UInt8) :
    t.transmissions top current loss = .ok (t.answer top loss current) := by
  obtain ⟨n, hn⟩ : ∃ n, t.transmissions top current loss = .ok n := exists_transmissions hpos hlt
  rw [answer, hn]

theorem answer_mono (hcurrent : current ≤ current') (hloss : loss ≤ loss') :
    t.answer top loss current ≤ t.answer top loss' current' := by
  have hanswer := transmissions_eq_answer hpos hlt t
  calc t.answer top loss current
    _ ≤ t.answer top loss current' :=
      transmissions_le_of_current_le hcurrent (hanswer loss current) (hanswer loss current')
    _ ≤ t.answer top loss' current' :=
      transmissions_le_of_loss_le hloss (hanswer loss current') (hanswer loss' current')

theorem answer_rests (t : LossThresholds) (loss current : UInt8) :
    t.answer top loss current = current ∨
      t.remoteness top loss (t.answer top loss current) < t.remoteness top loss current := by
  by_cases hsame : t.answer top loss current = current
  · exact .inl hsame
  · exact .inr (remoteness_lt hpos (transmissions_eq_answer hpos hlt t loss current) hsame)

/-- The first answer sets the direction of all others. -/
theorem answers_one_way (t : LossThresholds) (loss current : UInt8) :
    (∀ i j, i ≤ j → (t.answer top loss)^[i] current ≤ (t.answer top loss)^[j] current) ∨
      ∀ i j, i ≤ j → (t.answer top loss)^[j] current ≤ (t.answer top loss)^[i] current := by
  have hmono : ∀ m n, m ≤ n → t.answer top loss m ≤ t.answer top loss n :=
    fun m n hle ↦ answer_mono hpos hlt hle (UInt8.le_refl loss)
  rcases UInt8.le_total current (t.answer top loss current) with hup | hdown
  · left
    intro i j hij
    exact Function.iterate_rel_iterate (r := (· ≤ ·)) hmono hup hij
  · right
    intro i j hij
    exact Function.iterate_rel_iterate (r := (· ≥ ·)) (fun m n hle ↦ hmono n m hle) hdown hij

theorem answers_rest (t : LossThresholds) (loss current : UInt8) {k : Nat} (hk : top.toNat ≤ k) :
    (t.answer top loss)^[k] current = (t.answer top loss)^[top.toNat] current := by
  have hfixed : t.answer top loss ((t.answer top loss)^[top.toNat] current) =
      (t.answer top loss)^[top.toNat] current :=
    Function.iterate_rests (answer_rests hpos hlt t loss) (remoteness_le hpos)
  obtain ⟨m, rfl⟩ := Nat.exists_eq_add_of_le' hk
  rw [Function.iterate_add_apply]
  exact Function.iterate_fixed hfixed m

end Answered

/-- More loss, or more transmissions in use, never makes for fewer transmissions, and the answers to
one loss go one way and stand still after as many rounds as there may be transmissions. -/
theorem transmissions_respond (hpos : 1 ≤ top) (hle : top ≤ 254) (t : LossThresholds) :
    (∀ current current' loss loss', current ≤ current' → loss ≤ loss' →
      ∃ n n', t.transmissions top current loss = .ok n ∧
        t.transmissions top current' loss' = .ok n' ∧ n ≤ n') ∧
    ∀ current loss,
      let round (k : Nat) : UInt8 := (t.answer top loss)^[k] current
      (∀ k, t.transmissions top (round k) loss = .ok (round (k + 1))) ∧
      ((∀ i j, i ≤ j → round i ≤ round j) ∨ ∀ i j, i ≤ j → round j ≤ round i) ∧
      ∀ k, top.toNat ≤ k → round k = round top.toNat := by
  have hlt : top < 255 := UInt8.lt_of_le_of_lt hle (by decide)
  have hanswer := transmissions_eq_answer hpos hlt t
  refine ⟨fun current current' loss loss' hcurrent hloss ↦ ?_, fun current loss ↦ ?_⟩
  · exact ⟨_, _, hanswer loss current, hanswer loss' current', answer_mono hpos hlt hcurrent hloss⟩
  · intro round
    refine ⟨fun k ↦ ?_, answers_one_way hpos hlt t loss current,
      fun k hk ↦ answers_rest hpos hlt t loss current hk⟩
    simp only [round, Function.iterate_succ_apply']
    exact hanswer loss _

/-- The second threshold is below the first, so that no loss keeps the number in use; two hundred is
more than the maximum and zero is less than the minimum. -/
theorem transmissions_respond_unordered :
    let t : LossThresholds := ⟨5, 4, 30⟩
    (∃ n n', t.transmissions 3 2 4 = .ok n ∧ t.transmissions 3 200 20 = .ok n' ∧ n ≤ n') ∧
      ∀ k, 3 ≤ k → (t.answer 3 20)^[k] 0 = 3 := by
  intro t
  have hpos : (1 : UInt8) ≤ 3 := by decide
  obtain ⟨hmono, hrounds⟩ := transmissions_respond hpos (by decide) t
  obtain ⟨-, -, hrest⟩ := hrounds 0 20
  refine ⟨hmono 2 200 4 20 (by decide) (by decide), fun k hk ↦ ?_⟩
  calc (t.answer 3 20)^[k] 0
    _ = (t.answer 3 20)^[3] 0 := hrest k hk
    _ = 3 := by decide

end AdaptiveRate.LossThresholds
