import AdaptiveRate.Proofs.LockTable

namespace AdaptiveRate.LockTable

variable {σ κ : Type}

def Step.slot : Step σ κ → σ
  | .acquire s _ => s
  | .poll s => s
  | .drop s => s

namespace Arrivals

/-- The first of two slots is after the key, and the other is not in line before it. -/
def Precedes [DecidableEq κ] (q : Arrivals σ κ) (k : κ) (s s' : σ) : Prop :=
  ∃ before behind, q.line k = before ++ s :: behind ∧ s' ∉ before

variable [DecidableEq κ] {q : Arrivals σ κ} {k : κ} {s s' : σ}

theorem precedes_of_notMem (hs : s ∈ q.line k) (hs' : s' ∉ q.line k) : q.Precedes k s s' := by
  obtain ⟨before, behind, hline⟩ := List.append_of_mem hs
  refine ⟨before, behind, hline, fun hmem ↦ hs' ?_⟩
  rw [hline]
  exact List.mem_append_left _ hmem

theorem Precedes.append (h : q.Precedes k s s') (u : σ) (k' : κ) :
    Precedes (q ++ [(u, k')]) k s s' := by
  obtain ⟨before, behind, hline, hs'⟩ := h
  rw [Precedes, line_append]
  split
  · exact ⟨before, behind ++ [u], by simp [hline], hs'⟩
  · exact ⟨before, behind, hline, hs'⟩

theorem Precedes.ne_head (h : q.Precedes k s s') (hne : s' ≠ s) :
    (q.line k).head? ≠ some s' := by
  obtain ⟨before, behind, hline, hs'⟩ := h
  rw [hline]
  cases before with
  | nil => simpa using hne.symm
  | cons a rest =>
    have ha : s' ≠ a := fun ha ↦ hs' (by simp [ha])
    simpa using ha.symm

variable [DecidableEq σ]

theorem Precedes.leave (h : q.Precedes k s s') (hq : (q.map Prod.fst).Nodup) {u : σ}
    (hu : u ≠ s) : (q.leave u).Precedes k s s' := by
  obtain ⟨before, behind, hline, hs'⟩ := h
  rw [Precedes, line_leave hq, hline, List.erase_append]
  split
  · exact ⟨_, behind, rfl, fun hmem ↦ hs' (List.mem_of_mem_erase hmem)⟩
  · refine ⟨before, behind.erase u, ?_, hs'⟩
    rw [List.erase_cons_tail (by simpa using hu.symm)]

theorem Precedes.step (h : q.Precedes k s s') (hq : (q.map Prod.fst).Nodup) {x : Step σ κ}
    (hx : x.slot = s → x = .poll s) : (q.step x).Precedes k s s' := by
  cases x with
  | acquire u k' =>
    have hu : u ≠ s := fun hu ↦ nomatch hx hu
    exact (h.leave hq hu).append u k'
  | poll u => exact h
  | drop u =>
    have hu : u ≠ s := fun hu ↦ nomatch hx hu
    exact h.leave hq hu

end Arrivals

variable [DecidableEq σ] [DecidableEq κ]

def Holds (t : LockTable σ κ) (s : σ) (k : κ) : Prop := ∃ id, t.tickets.get? s = some ⟨k, id, true⟩

def Waits (t : LockTable σ κ) (s : σ) (k : κ) : Prop := ∃ id, t.tickets.get? s = some ⟨k, id, false⟩

/-- The lock of the key has been handed to the slot, which may not know yet. -/
def Granted (t : LockTable σ κ) (s : σ) (k : κ) : Prop :=
  ∃ id, t.table.get? k = some id ∧ (t.mutex id).owner = some s

def Touches (t : LockTable σ κ) (x : Step σ κ) (k : κ) : Prop :=
  (∃ ticket, t.tickets.get? x.slot = some ticket ∧ ticket.key = k) ∨ x = .acquire x.slot k

section Frame

variable (t : LockTable σ κ) {s s' : σ} {k k' : κ}

theorem tickets_drop_of_ne (h : s' ≠ s) : (t.drop s).tickets.get? s' = t.tickets.get? s' := by
  unfold drop
  split
  · rfl
  · dsimp only
    split
    · simp [tickets_release, h]
    · simp [h]

theorem tickets_step (x : Step σ κ) (h : s ≠ x.slot) :
    (t.step x).tickets.get? s = t.tickets.get? s := by
  cases x with
  | acquire s' k =>
    have hs : s ≠ s' := h
    simp only [step, acquire]
    split <;> simp [enter, hs, tickets_drop_of_ne]
  | poll s' =>
    have hs : s ≠ s' := h
    simp only [step, poll]
    split
    · rfl
    · split
      · simp [hs]
      · rfl
  | drop s' => exact t.tickets_drop_of_ne h

theorem table_drop (h : ∀ ticket, t.tickets.get? s = some ticket → ticket.key ≠ k) :
    (t.drop s).table.get? k = t.table.get? k := by
  unfold drop
  split
  · rfl
  · next ticket hs =>
    dsimp only
    split
    · exact table_release _ (h ticket hs).symm
    · rfl

theorem table_step {x : Step σ κ} (h : ¬ t.Touches x k) :
    (t.step x).table.get? k = t.table.get? k := by
  have hslot : ∀ ticket, t.tickets.get? x.slot = some ticket → ticket.key ≠ k :=
    fun ticket hs hk ↦ h (.inl ⟨ticket, hs, hk⟩)
  cases x with
  | acquire s k' =>
    have hne : k ≠ k' := fun hk ↦ h (.inr (hk ▸ rfl))
    have hdrop : (t.drop s).table.get? k = t.table.get? k := t.table_drop hslot
    simp only [step, acquire]
    split
    · exact hdrop
    · simp [enter, hne, hdrop]
  | poll s =>
    simp only [step, poll]
    split
    · rfl
    · split <;> rfl
  | drop s => exact t.table_drop hslot

end Frame

/-- Nobody is served out of turn, and nobody is disturbed by what goes on under other keys. -/
structure Fair (q : Arrivals σ κ) (t : LockTable σ κ) : Prop where
  exclusive : ∀ s s' k, t.Holds s k → t.Holds s' k → s = s'
  current : ∀ s ticket, t.tickets.get? s = some ticket →
    t.table.get? ticket.key = some ticket.mutex
  members : ∀ s k, t.Holds s k ∨ t.Waits s k ↔ s ∈ q.line k
  served : ∀ s k, t.Holds s k → (q.line k).head? = some s
  granted : ∀ s k, t.Waits s k → ∃ first, (q.line k).head? = some first ∧ t.Granted first k ∧
    (t.Holds first k ∨ t.Waits first k ∧ (t.poll first).Holds first k)
  poll_iff : ∀ s k, t.Waits s k → ((t.poll s).Holds s k ↔ (q.line k).head? = some s)
  /-- While a slot keeps its place in line, nobody who comes later is served. -/
  turns : ∀ s s' k (more : List (Step σ κ)), s ∈ q.line k → s' ∉ q.line k →
    (∀ x ∈ more, x.slot = s → x = .poll s) → ¬ (more.foldl step t).Holds s' k
  others : ∀ x s, s ≠ x.slot → (t.step x).tickets.get? s = t.tickets.get? s
  untouched : ∀ x k, ¬ t.Touches x k → (t.step x).table.get? k = t.table.get? k ∧
    ∀ id, t.table.get? k = some id → (t.step x).mutex id = t.mutex id

variable {q : Arrivals σ κ} {t : LockTable σ κ} {s s' : σ} {k : κ}

theorem Orderly.members (h : Orderly q t) : t.Holds s k ∨ t.Waits s k ↔ s ∈ q.line k := by
  rw [Arrivals.mem_line, h.mem_iff]
  constructor
  · rintro (⟨id, hs⟩ | ⟨id, hs⟩)
    · exact ⟨id, true, hs⟩
    · exact ⟨id, false, hs⟩
  · rintro ⟨id, held, hs⟩
    cases held with
    | true => exact .inl ⟨id, hs⟩
    | false => exact .inr ⟨id, hs⟩

theorem Orderly.served (h : Orderly q t) (hs : t.Holds s k) : (q.line k).head? = some s := by
  obtain ⟨id, hticket⟩ := hs
  exact h.first s k id hticket

theorem Orderly.granted (h : Orderly q t) (hfirst : (q.line k).head? = some s) :
    t.Granted s k := by
  obtain ⟨id, held, hs⟩ := (h.mem_iff s k).1 (Arrivals.mem_line.1 (List.mem_of_head? hfirst))
  have hid := h.entry s k id held hs
  refine ⟨id, hid, ?_⟩
  rw [h.mutex_eq k id hid]
  exact hfirst

theorem Orderly.poll_iff (h : Orderly q t) (hs : t.Waits s k) :
    (t.poll s).Holds s k ↔ (q.line k).head? = some s := by
  obtain ⟨id, hticket⟩ := hs
  have howner : (t.mutex id).owner = (q.line k).head? := by
    rw [h.mutex_eq k id (h.entry s k id false hticket)]
    rfl
  simp only [LockTable.poll, hticket, howner]
  split
  · next hfirst => simp [Holds, hticket, hfirst]
  · next hfirst => simp [Holds, hticket, hfirst]

theorem Orderly.turns (h : Orderly q t) (hq : q.Precedes k s s') (hne : s' ≠ s)
    {more : List (Step σ κ)} (hmore : ∀ x ∈ more, x.slot = s → x = .poll s) :
    ¬ (more.foldl LockTable.step t).Holds s' k := by
  induction more generalizing q t with
  | nil => exact fun hs' ↦ hq.ne_head hne (h.served hs')
  | cons x rest ih =>
    have hx := hq.step h.nodup (hmore x List.mem_cons_self)
    exact ih (h.step x) hx fun y hy ↦ hmore y (List.mem_cons_of_mem _ hy)

theorem Orderly.line_step (h : Orderly q t) {x : Step σ κ} (hx : ¬ t.Touches x k) :
    (q.step x).line k = q.line k := by
  have hslot : x.slot ∉ q.line k := by
    intro hmem
    obtain ⟨id, held, hs⟩ := (h.mem_iff _ k).1 (Arrivals.mem_line.1 hmem)
    exact hx (.inl ⟨_, hs, rfl⟩)
  have hleave : (q.leave x.slot).line k = q.line k := by
    rw [Arrivals.line_leave h.nodup, List.erase_of_not_mem hslot]
  cases x with
  | acquire u k' =>
    have hne : k ≠ k' := fun hk ↦ hx (.inr (hk ▸ rfl))
    rw [Arrivals.step, Arrivals.line_append, if_neg hne]
    exact hleave
  | poll u => rfl
  | drop u => exact hleave

theorem Orderly.mutex_step (h : Orderly q t) {x : Step σ κ} (hx : ¬ t.Touches x k) {id : Nat}
    (hid : t.table.get? k = some id) : (t.step x).mutex id = t.mutex id := by
  have hid' : (t.step x).table.get? k = some id := (t.table_step hx).trans hid
  rw [(h.step x).mutex_eq k id hid', h.mutex_eq k id hid, h.line_step hx]

theorem Orderly.fair (h : Orderly q t) : Fair q t where
  exclusive s s' k hs hs' := Option.some_inj.1 ((h.served hs).symm.trans (h.served hs'))
  current s ticket hs := h.entry s ticket.key ticket.mutex ticket.held hs
  members _ _ := h.members
  served _ _ := h.served
  granted s k hs := by
    have hmem := h.members.1 (.inr hs)
    cases hfirst : (q.line k).head? with
    | none =>
      rw [List.head?_eq_none_iff.1 hfirst] at hmem
      cases hmem
    | some first =>
      refine ⟨first, rfl, h.granted hfirst, ?_⟩
      have hin := h.members.2 (List.mem_of_head? hfirst)
      exact hin.imp_right fun hw ↦ ⟨hw, (h.poll_iff hw).2 hfirst⟩
  poll_iff _ _ := h.poll_iff
  turns s s' k more hs hs' hmore := by
    have hne : s' ≠ s := fun heq ↦ hs' (heq ▸ hs)
    exact h.turns (Arrivals.precedes_of_notMem hs hs') hne hmore
  others x s hs := t.tickets_step x hs
  untouched x k hx := ⟨t.table_step hx, fun _ ↦ h.mutex_step hx⟩

theorem run_fair (steps : List (Step σ κ)) : Fair (arrivals steps) (run steps) :=
  (orderly_empty.foldl steps).fair

end AdaptiveRate.LockTable
