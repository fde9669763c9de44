import AdaptiveRate.Proofs.LockTable.Fair
import Mathlib.Data.List.Induction
import Mathlib.Data.List.Perm.Subperm

namespace AdaptiveRate.LockTable

variable {σ κ : Type} [DecidableEq σ] [DecidableEq κ]

def InFlight (t : LockTable σ κ) (k : κ) : Prop := ∃ s, t.Holds s k ∨ t.Waits s k

def Cancels (t : LockTable σ κ) (x : Step σ κ) (k : κ) : Prop :=
  t.Waits x.slot k ∧ x ≠ .poll x.slot

/-- The last slot to leave the line of the key was still waiting, and nobody has come for the key
since. -/
def Abandoned (steps : List (Step σ κ)) (k : κ) : Prop :=
  ∃ before x after, steps = before ++ x :: after ∧ (run before).Cancels x k ∧
    (arrivals (before ++ [x])).line k = [] ∧ ∀ y ∈ after, y ≠ .acquire y.slot k

theorem not_abandoned_nil (k : κ) : ¬ Abandoned ([] : List (Step σ κ)) k := by
  rintro ⟨before, x, after, hnil, -⟩
  simp at hnil

theorem abandoned_concat (steps : List (Step σ κ)) (x : Step σ κ) (k : κ) :
    Abandoned (steps ++ [x]) k ↔
      (run steps).Cancels x k ∧ (arrivals (steps ++ [x])).line k = [] ∨
        Abandoned steps k ∧ x ≠ .acquire x.slot k := by
  constructor
  · rintro ⟨before, y, after, heq, hcancels, hline, hafter⟩
    rcases List.eq_nil_or_concat after with rfl | ⟨rest, z, rfl⟩
    · obtain ⟨rfl, rfl⟩ := List.append_singleton_inj.1 heq
      exact .inl ⟨hcancels, hline⟩
    · rw [List.concat_eq_append] at heq hafter
      rw [← List.cons_append, ← List.append_assoc] at heq
      obtain ⟨rfl, rfl⟩ := List.append_singleton_inj.1 heq
      refine .inr ⟨⟨before, y, rest, rfl, hcancels, hline, ?_⟩, hafter x (by simp)⟩
      exact fun y hy ↦ hafter y (List.mem_append_left _ hy)
  · rintro (⟨hcancels, hline⟩ | ⟨⟨before, y, after, rfl, hcancels, hline, hafter⟩, hx⟩)
    · exact ⟨steps, x, [], rfl, hcancels, hline, by simp⟩
    · refine ⟨before, y, after ++ [x], by simp, hcancels, hline, ?_⟩
      intro z hz
      rcases List.mem_append.1 hz with hz | hz
      · exact hafter z hz
      · rw [List.mem_singleton.1 hz]
        exact hx

variable {q : Arrivals σ κ} {t : LockTable σ κ} {s : σ} {k : κ} {x : Step σ κ}

theorem Orderly.not_inFlight_iff (h : Orderly q t) : ¬ t.InFlight k ↔ q.line k = [] := by
  simp only [InFlight, h.members, not_exists, List.eq_nil_iff_forall_not_mem]

theorem Orderly.mem_keys (h : Orderly q t) (hs : s ∈ q.line k) : k ∈ t.table.keys := by
  obtain ⟨id, held, hticket⟩ := (h.mem_iff s k).1 (Arrivals.mem_line.1 hs)
  exact t.table.mem_keys_iff.2 ⟨id, h.entry s k id held hticket⟩

theorem Orderly.not_inUse (h : Orderly q t) {id : Nat} (hid : t.table.get? k = some id)
    (hline : q.line k = []) : t.inUse id = false := by
  refine Bool.eq_false_iff.2 fun huse ↦ ?_
  obtain ⟨s, ⟨k', id', held⟩, hticket, rfl⟩ := inUse_iff.1 huse
  obtain rfl := h.distinct k k' id' hid (h.entry s k' id' held hticket)
  have hs : s ∈ q.line k := Arrivals.mem_line.2 ((h.mem_iff s k).2 ⟨id', held, hticket⟩)
  rw [hline] at hs
  cases hs

omit [DecidableEq σ] in
theorem get?_release_of_not_inUse {id : Nat} (hid : t.table.get? k = some id)
    (hfree : t.inUse id = false) : (t.release k).table.get? k = none := by
  simp [release, hid, hfree]

/-- Of a line that is empty afterwards, only a slot that held the lock takes the lock along. -/
theorem Orderly.mem_keys_drop (h : Orderly q t) (hline : (q.leave s).line k = []) :
    k ∈ (t.drop s).table.keys ↔ k ∈ t.table.keys ∧ ¬ t.Holds s k := by
  simp only [KeyMap.mem_keys_iff]
  by_cases hs : t.Holds s k
  · obtain ⟨id, hticket⟩ := hs
    have hid := h.entry s k id true hticket
    have hfree := (h.leave hticket).not_inUse hid hline
    have hgone : (t.drop s).table.get? k = none := by
      simp only [LockTable.drop, hticket, if_true]
      exact get?_release_of_not_inUse hid hfree
    simp [hgone, Holds, hticket]
  · have hkept : (t.drop s).table.get? k = t.table.get? k := by
      by_cases hw : t.Waits s k
      · obtain ⟨id, hticket⟩ := hw
        simp [LockTable.drop, hticket]
      · refine t.table_drop ?_
        rintro ⟨k', id, held⟩ hticket rfl
        cases held with
        | true => exact hs ⟨id, hticket⟩
        | false => exact hw ⟨id, hticket⟩
    simp [hkept, hs]

theorem Arrivals.line_acquire_ne_nil (q : Arrivals σ κ) (s : σ) (k : κ) :
    (q.step (.acquire s k)).line k ≠ [] := by
  simp [Arrivals.step, line_append]

theorem Orderly.mem_keys_step (h : Orderly q t) (hline : (q.step x).line k = []) :
    k ∈ (t.step x).table.keys ↔ k ∈ t.table.keys ∧ ¬ t.Holds x.slot k := by
  cases x with
  | acquire s k' =>
    have hne : k ≠ k' := by
      rintro rfl
      exact q.line_acquire_ne_nil s k hline
    have hleave : (q.leave s).line k = [] := by
      rwa [Arrivals.step, Arrivals.line_append, if_neg hne] at hline
    have hkept : (t.step (.acquire s k')).table.get? k = (t.drop s).table.get? k := by
      simp only [LockTable.step, LockTable.acquire]
      split
      · rfl
      · simp [LockTable.enter, hne]
    refine Iff.trans ?_ (h.mem_keys_drop hleave)
    rw [KeyMap.mem_keys_iff, KeyMap.mem_keys_iff, hkept]
    rfl
  | poll s =>
    have hs : ¬ t.Holds s k := by
      intro hs
      have hmem := h.members.1 (.inl hs)
      rw [show q.line k = [] from hline] at hmem
      cases hmem
    have htable : (t.step (.poll s)).table = t.table := by
      simp only [LockTable.step, LockTable.poll]
      split
      · rfl
      · split <;> rfl
    rw [htable]
    exact ⟨fun hk ↦ ⟨hk, hs⟩, And.left⟩
  | drop s => exact h.mem_keys_drop hline

omit [DecidableEq κ] in
theorem arrivals_concat (steps : List (Step σ κ)) (x : Step σ κ) :
    arrivals (steps ++ [x]) = (arrivals steps).step x := by
  simp [arrivals]

theorem run_concat (steps : List (Step σ κ)) (x : Step σ κ) :
    run (steps ++ [x]) = (run steps).step x := by
  simp [run]

theorem orderly_run (steps : List (Step σ κ)) : Orderly (arrivals steps) (run steps) :=
  orderly_empty.foldl steps

theorem Orderly.cancels (h : Orderly q t) (hw : t.Waits x.slot k)
    (hline : (q.step x).line k = []) : t.Cancels x k := by
  refine ⟨hw, fun hx ↦ ?_⟩
  have hmem := h.members.1 (.inr hw)
  rw [hx, show q.step (.poll x.slot) = q from rfl] at hline
  rw [hline] at hmem
  cases hmem

omit [DecidableEq κ] in
theorem not_touches (hs : ¬ t.Holds x.slot k) (hw : ¬ t.Waits x.slot k)
    (hx : x ≠ .acquire x.slot k) : ¬ t.Touches x k := by
  rintro (⟨⟨k', id, held⟩, hticket, rfl⟩ | hacquire)
  · cases held with
    | true => exact hs ⟨id, hticket⟩
    | false => exact hw ⟨id, hticket⟩
  · exact hx hacquire

/-- A key that nobody is after is left in the table where it has been abandoned. -/
theorem leftover_iff (steps : List (Step σ κ)) (k : κ) :
    k ∈ (run steps).table.keys ∧ (arrivals steps).line k = [] ↔ Abandoned steps k := by
  induction steps using List.reverseRecOn with
  | nil =>
    have hnil : k ∉ (run ([] : List (Step σ κ))).table.keys := List.not_mem_nil
    exact ⟨fun h ↦ absurd h.1 hnil, fun h ↦ absurd h (not_abandoned_nil k)⟩
  | append_singleton steps x ih =>
    have h := orderly_run steps
    have hnone (hline : (arrivals steps).line k = []) :
        ¬ (run steps).Holds x.slot k ∧ ¬ (run steps).Waits x.slot k := by
      rw [← not_or, h.members, hline]
      exact List.not_mem_nil
    rw [abandoned_concat, ← ih, run_concat, arrivals_concat]
    constructor
    · rintro ⟨hkey, hline⟩
      obtain ⟨hkey, hs⟩ := (h.mem_keys_step hline).1 hkey
      by_cases hw : (run steps).Waits x.slot k
      · exact .inl ⟨h.cancels hw hline, hline⟩
      · -- The step has nothing to do with the key, so what it finds was left before.
        have hx : x ≠ .acquire x.slot k := by
          intro hx
          rw [hx] at hline
          exact (arrivals steps).line_acquire_ne_nil _ _ hline
        rw [h.line_step (not_touches hs hw hx)] at hline
        exact .inr ⟨⟨hkey, hline⟩, hx⟩
    · rintro (⟨⟨hw, -⟩, hline⟩ | ⟨⟨hkey, hline⟩, hx⟩)
      · have hs : ¬ (run steps).Holds x.slot k := by
          rintro ⟨id, hticket⟩
          obtain ⟨id', hticket'⟩ := hw
          rw [hticket] at hticket'
          cases hticket'
        exact ⟨(h.mem_keys_step hline).2 ⟨h.mem_keys (h.members.1 (.inr hw)), hs⟩, hline⟩
      · obtain ⟨hs, hw⟩ := hnone hline
        have hstep := h.line_step (not_touches hs hw hx)
        rw [hline] at hstep
        exact ⟨(h.mem_keys_step hstep).2 ⟨hkey, hs⟩, hstep⟩

theorem mem_keys_run (steps : List (Step σ κ)) (k : κ) :
    k ∈ (run steps).table.keys ↔ (run steps).InFlight k ∨ Abandoned steps k := by
  have h := orderly_run steps
  rw [← leftover_iff, ← h.not_inFlight_iff]
  constructor
  · intro hkey
    by_cases hflight : (run steps).InFlight k
    · exact .inl hflight
    · exact .inr ⟨hkey, hflight⟩
  · rintro (⟨s, hs⟩ | ⟨hkey, -⟩)
    · exact h.mem_keys (h.members.1 hs)
    · exact hkey

theorem Abandoned.not_inFlight {steps : List (Step σ κ)} (h : Abandoned steps k) :
    ¬ (run steps).InFlight k :=
  (orderly_run steps).not_inFlight_iff.2 ((leftover_iff steps k).2 h).2

theorem Abandoned.mem_keys {steps : List (Step σ κ)} (h : Abandoned steps k) :
    k ∈ (run steps).table.keys := ((leftover_iff steps k).2 h).1

theorem size_eq_iff (steps : List (Step σ κ)) {flying : List κ} (hnodup : flying.Nodup)
    (hflying : ∀ k, k ∈ flying ↔ (run steps).InFlight k) :
    (run steps).size = flying.length ↔ ∀ k, ¬ Abandoned steps k := by
  have hkeys : (run steps).table.keys.Nodup := (run steps).table.nodup
  rw [size, ← KeyMap.length_keys]
  constructor
  · intro hlen k hk
    have hsub : flying ⊆ (run steps).table.keys := fun k hk ↦
      (mem_keys_run steps k).2 (.inl ((hflying k).1 hk))
    have hperm := (List.subperm_of_subset hnodup hsub).perm_of_length_le (Nat.le_of_eq hlen)
    exact hk.not_inFlight ((hflying k).1 (hperm.mem_iff.2 hk.mem_keys))
  · intro hnone
    refine List.Perm.length_eq ((List.perm_ext_iff_of_nodup hkeys hnodup).2 fun k ↦ ?_)
    rw [mem_keys_run, hflying, or_iff_left (hnone k)]

/-- The table names the keys in flight, and others only after a slot has given up waiting as the
last in its line. -/
theorem keys_exact (steps : List (Step σ κ)) :
    (∀ k, k ∈ (run steps).table.keys ↔ (run steps).InFlight k ∨ Abandoned steps k) ∧
    ((∀ k, k ∈ (run steps).table.keys ↔ (run steps).InFlight k) ↔ ∀ k, ¬ Abandoned steps k) ∧
    (∀ flying : List κ, flying.Nodup → (∀ k, k ∈ flying ↔ (run steps).InFlight k) →
      ((run steps).size = flying.length ↔ ∀ k, ¬ Abandoned steps k)) ∧
    ((∀ k, ¬ (run steps).InFlight k) →
      ((run steps).isEmpty = true ↔ ∀ k, ¬ Abandoned steps k)) := by
  refine ⟨mem_keys_run steps, ?_, fun _ ↦ size_eq_iff steps, fun hidle ↦ ?_⟩
  · constructor
    · intro hexact k hk
      exact hk.not_inFlight ((hexact k).1 hk.mem_keys)
    · intro hnone k
      rw [mem_keys_run, or_iff_left (hnone k)]
  · have hnil := size_eq_iff steps List.nodup_nil fun k ↦ iff_of_false List.not_mem_nil (hidle k)
    rw [← hnil, isEmpty, beq_iff_eq, List.length_nil]

/-- The lock is handed to the second slot, which gives up before it finds out. -/
def lateCancel : List (Step Nat Nat) := [.acquire 1 0, .acquire 2 0, .drop 1, .drop 2]

theorem lateCancel_leftover :
    0 ∈ (run lateCancel).table.keys ∧ (∀ k, ¬ (run lateCancel).InFlight k) ∧
      (run lateCancel).size = 1 ∧ (run lateCancel).isEmpty = false := by
  have hkey : 0 ∈ (run lateCancel).table.keys := by decide
  refine ⟨hkey, ?_, by decide, by decide⟩
  rintro k ⟨s, ⟨id, hs⟩ | ⟨id, hs⟩⟩ <;> cases hs

end AdaptiveRate.LockTable
