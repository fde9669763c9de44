import AdaptiveRate.LockTable
import AdaptiveRate.Proofs.KeyMap
import Mathlib.Data.List.Nodup

namespace List

theorem head?_erase_of_ne {α : Type} [DecidableEq α] {l : List α} {a b : α}
    (h : l.head? = some a) (hne : a ≠ b) : (l.erase b).head? = some a := by
  cases l with
  | nil => cases h
  | cons c rest =>
    obtain rfl := Option.some_inj.1 h
    simp [hne]

end List

namespace AdaptiveRate

variable {σ κ : Type}

namespace Mutex

def ofLine (l : List σ) : Mutex σ := ⟨l.head?, l.tail⟩

theorem enter_ofLine (l : List σ) (s : σ) : (ofLine l).enter s = ofLine (l ++ [s]) := by
  cases l <;> simp [ofLine, enter]

theorem leave_ofLine [DecidableEq σ] (l : List σ) (s : σ) :
    (ofLine l).leave s = ofLine (l.erase s) := by
  cases l with
  | nil => simp [ofLine, leave]
  | cons a rest =>
    by_cases h : a = s
    · simp [ofLine, leave, handOn, h]
    · simp [ofLine, leave, h]

end Mutex

namespace LockTable

/-- Slots and the keys they are after, in the order in which they came. -/
abbrev Arrivals (σ κ : Type) := List (σ × κ)

namespace Arrivals

variable {q : Arrivals σ κ} {s s' : σ} {k : κ}

section Line

variable [DecidableEq κ]

def line (q : Arrivals σ κ) (k : κ) : List σ := (q.filter (·.2 = k)).map Prod.fst

@[simp]
theorem mem_line : s ∈ q.line k ↔ (s, k) ∈ q := by
  simp [line]

theorem line_append (s : σ) (k k' : κ) :
    line (q ++ [(s, k)]) k' = if k' = k then q.line k' ++ [s] else q.line k' := by
  by_cases h : k' = k
  · simp [line, h]
  · simp [line, h, Ne.symm h]

end Line

variable [DecidableEq σ]

def leave (q : Arrivals σ κ) (s : σ) : Arrivals σ κ := q.filter (·.1 != s)

def step (q : Arrivals σ κ) : Step σ κ → Arrivals σ κ
  | .acquire s k => q.leave s ++ [(s, k)]
  | .poll _ => q
  | .drop s => q.leave s

@[simp]
theorem mem_leave : (s', k) ∈ q.leave s ↔ s' ≠ s ∧ (s', k) ∈ q := by
  simp [leave, and_comm]

theorem leave_eq_self (h : ∀ k, (s, k) ∉ q) : q.leave s = q := by
  refine List.filter_eq_self.2 ?_
  rintro ⟨s', k⟩ hmem
  rw [bne_iff_ne]
  intro heq
  subst heq
  exact h k hmem

theorem nodup_leave (h : (q.map Prod.fst).Nodup) : ((q.leave s).map Prod.fst).Nodup :=
  h.sublist (List.filter_sublist.map _)

theorem line_leave [DecidableEq κ] (h : (q.map Prod.fst).Nodup) :
    (q.leave s).line k = (q.line k).erase s := by
  have hline : (q.line k).Nodup := h.sublist (List.filter_sublist.map _)
  rw [hline.erase_eq_filter]
  simp only [line, leave, List.filter_map, List.filter_filter]
  congr 1
  apply List.filter_congr
  rintro ⟨s', k'⟩ -
  exact Bool.and_comm _ _

end Arrivals

theorem tickets_release [DecidableEq κ] (t : LockTable σ κ) (k : κ) :
    (t.release k).tickets = t.tickets := by
  unfold release
  split
  · split <;> rfl
  · rfl

theorem table_release [DecidableEq κ] (t : LockTable σ κ) {k k' : κ} (h : k' ≠ k) :
    (t.release k).table.get? k' = t.table.get? k' := by
  unfold release
  split
  · split
    · rfl
    · simp [h]
  · rfl

variable [DecidableEq σ]

/-- Everyone who is after a key once these steps have been taken, the first to come first. -/
def arrivals (steps : List (Step σ κ)) : Arrivals σ κ :=
  steps.foldl Arrivals.step []

theorem mutex_modify (t : LockTable σ κ) (id id' : Nat) (s : σ) :
    ((t.mutexes.modify id (·.leave s)).get? id').getD .free =
      if id' = id then (t.mutex id').leave s else t.mutex id' := by
  rw [KeyMap.get?_modify]
  split
  · cases hm : t.mutexes.get? id' with
    | none => simp [mutex, hm, Mutex.free, Mutex.leave]
    | some m => simp [mutex, hm]
  · rfl

theorem mutex_enter (t : LockTable σ κ) (s : σ) (k : κ) (id id' : Nat) :
    (t.enter s k id).mutex id' = if id' = id then (t.mutex id).enter s else t.mutex id' := by
  simp only [enter, mutex, KeyMap.get?_insert]
  split <;> rfl

theorem inUse_iff {t : LockTable σ κ} {id : Nat} :
    t.inUse id = true ↔ ∃ s ticket, t.tickets.get? s = some ticket ∧ ticket.mutex = id := by
  simp only [inUse, List.any_eq_true, KeyMap.mem_values_iff, beq_iff_eq]
  constructor
  · rintro ⟨ticket, ⟨s, hs⟩, hid⟩
    exact ⟨s, ticket, hs, hid⟩
  · rintro ⟨s, ticket, hs, hid⟩
    exact ⟨ticket, ⟨s, hs⟩, hid⟩

variable [DecidableEq κ]

def run (steps : List (Step σ κ)) : LockTable σ κ := steps.foldl step empty

/-- The lock of each key has for its line the slots that are after the key, and whoever holds it
comes first. -/
structure Orderly (q : Arrivals σ κ) (t : LockTable σ κ) : Prop where
  nodup : (q.map Prod.fst).Nodup
  mem_iff : ∀ s k, (s, k) ∈ q ↔ ∃ id held, t.tickets.get? s = some ⟨k, id, held⟩
  entry : ∀ s k id held, t.tickets.get? s = some ⟨k, id, held⟩ → t.table.get? k = some id
  first : ∀ s k id, t.tickets.get? s = some ⟨k, id, true⟩ → (q.line k).head? = some s
  mutex_eq : ∀ k id, t.table.get? k = some id → t.mutex id = .ofLine (q.line k)
  distinct : ∀ k k' id, t.table.get? k = some id → t.table.get? k' = some id → k = k'
  lt_fresh : ∀ k id, t.table.get? k = some id → id < t.fresh
  unused : ∀ id, t.fresh ≤ id → t.mutexes.get? id = none

variable {q : Arrivals σ κ} {t : LockTable σ κ} {s : σ} {k : κ}

theorem orderly_empty : Orderly ([] : Arrivals σ κ) empty := by
  constructor <;> simp [empty]

theorem Orderly.notMem (h : Orderly q t) (hs : t.tickets.get? s = none) (k : κ) : (s, k) ∉ q := by
  rw [h.mem_iff, hs]
  simp

theorem Orderly.key_eq (h : Orderly q t) {ticket : Ticket κ} (hs : t.tickets.get? s = some ticket)
    (hk : (s, k) ∈ q) : ticket.key = k := by
  obtain ⟨id, held, hticket⟩ := (h.mem_iff s k).1 hk
  rw [hs] at hticket
  cases hticket
  rfl

theorem Orderly.id_eq_iff (h : Orderly q t) {k' : κ} {id id' : Nat}
    (hk : t.table.get? k = some id) (hk' : t.table.get? k' = some id') : id' = id ↔ k' = k := by
  constructor
  · rintro rfl
    exact h.distinct k' k id' hk' hk
  · rintro rfl
    exact Option.some_inj.1 (hk'.symm.trans hk)

theorem Orderly.line_eq_nil (h : Orderly q t) (hk : t.table.get? k = none) : q.line k = [] := by
  refine List.eq_nil_iff_forall_not_mem.2 fun s hs ↦ ?_
  obtain ⟨id, held, hticket⟩ := (h.mem_iff s k).1 (Arrivals.mem_line.1 hs)
  rw [h.entry s k id held hticket] at hk
  cases hk

theorem Orderly.leave (h : Orderly q t) {id : Nat} {held : Bool}
    (hs : t.tickets.get? s = some ⟨k, id, held⟩) :
    Orderly (q.leave s) { t with
      mutexes := t.mutexes.modify id (·.leave s)
      tickets := t.tickets.erase s } where
  nodup := Arrivals.nodup_leave h.nodup
  mem_iff s' k' := by
    simp only [Arrivals.mem_leave, h.mem_iff, KeyMap.get?_erase_eq_some_iff, exists_and_left]
  entry s' k' id' held' hs' := by
    obtain ⟨-, hs'⟩ := KeyMap.get?_erase_eq_some_iff.1 hs'
    exact h.entry s' k' id' held' hs'
  first s' k' id' hs' := by
    obtain ⟨hne, hs'⟩ := KeyMap.get?_erase_eq_some_iff.1 hs'
    rw [Arrivals.line_leave h.nodup]
    exact List.head?_erase_of_ne (h.first s' k' id' hs') hne
  mutex_eq k' id' hk' := by
    have hmutex := h.mutex_eq k' id' hk'
    have hsame := h.id_eq_iff (h.entry s k id held hs) hk'
    rw [Arrivals.line_leave h.nodup]
    refine (mutex_modify t id id' s).trans ?_
    split
    · next heq =>
      subst heq
      rw [hmutex, Mutex.leave_ofLine]
    · next hne =>
      have hs' : s ∉ q.line k' := fun hmem ↦
        hne (hsame.2 (h.key_eq hs (Arrivals.mem_line.1 hmem)).symm)
      rw [hmutex, List.erase_of_not_mem hs']
  distinct := h.distinct
  lt_fresh := h.lt_fresh
  unused id' hid' := by simp [h.unused id' hid']

theorem Orderly.forget (h : Orderly q t) {id : Nat} (hk : t.table.get? k = some id)
    (hfree : ¬ t.inUse id = true) :
    Orderly q { t with table := t.table.erase k, mutexes := t.mutexes.erase id } where
  nodup := h.nodup
  mem_iff := h.mem_iff
  first := h.first
  entry s k' id' held hs := by
    have hid := h.entry s k' id' held hs
    refine KeyMap.get?_erase_eq_some_iff.2 ⟨?_, hid⟩
    intro heq
    subst heq
    obtain rfl := Option.some_inj.1 (hk.symm.trans hid)
    exact hfree (inUse_iff.2 ⟨s, _, hs, rfl⟩)
  mutex_eq k' id' hk' := by
    obtain ⟨hne, hold⟩ := KeyMap.get?_erase_eq_some_iff.1 hk'
    have hid : id' ≠ id := mt (h.id_eq_iff hk hold).1 hne
    simpa [mutex, hid] using h.mutex_eq k' id' hold
  distinct k' k'' id' hk' hk'' := by
    obtain ⟨-, hk'⟩ := KeyMap.get?_erase_eq_some_iff.1 hk'
    obtain ⟨-, hk''⟩ := KeyMap.get?_erase_eq_some_iff.1 hk''
    exact h.distinct k' k'' id' hk' hk''
  lt_fresh k' id' hk' := by
    obtain ⟨-, hk'⟩ := KeyMap.get?_erase_eq_some_iff.1 hk'
    exact h.lt_fresh k' id' hk'
  unused id' hid' := by simp [h.unused id' hid']

theorem Orderly.release (h : Orderly q t) (k : κ) : Orderly q (t.release k) := by
  unfold LockTable.release
  split
  · next id hk =>
    split
    · exact h
    · next hfree => exact h.forget hk hfree
  · exact h

theorem Orderly.drop (h : Orderly q t) (s : σ) : Orderly (q.leave s) (t.drop s) := by
  unfold LockTable.drop
  split
  · next hs =>
    rw [Arrivals.leave_eq_self (h.notMem hs)]
    exact h
  · next ticket hs =>
    have hleft := h.leave hs
    dsimp only
    split
    · exact hleft.release ticket.key
    · exact hleft

theorem Orderly.make (h : Orderly q t) (hk : t.table.get? k = none) :
    Orderly q { t with table := t.table.insert k t.fresh, fresh := t.fresh + 1 } where
  nodup := h.nodup
  mem_iff := h.mem_iff
  first := h.first
  entry s k' id held hs := by
    have hid := h.entry s k' id held hs
    refine KeyMap.get?_insert_eq_some_iff.2 (.inr ⟨?_, hid⟩)
    intro heq
    subst heq
    rw [hk] at hid
    cases hid
  mutex_eq k' id hk' := by
    rcases KeyMap.get?_insert_eq_some_iff.1 hk' with ⟨rfl, rfl⟩ | ⟨-, hk'⟩
    · have hfree : t.mutex t.fresh = .free := by simp [mutex, h.unused t.fresh (Nat.le_refl _)]
      rw [h.line_eq_nil hk]
      exact hfree
    · exact h.mutex_eq k' id hk'
  distinct k' k'' id hk' hk'' := by
    rcases KeyMap.get?_insert_eq_some_iff.1 hk' with ⟨rfl, rfl⟩ | ⟨-, hold⟩ <;>
      rcases KeyMap.get?_insert_eq_some_iff.1 hk'' with ⟨rfl, hid⟩ | ⟨-, hold'⟩
    · rfl
    · exact absurd (h.lt_fresh k'' _ hold') (Nat.lt_irrefl _)
    · exact absurd (h.lt_fresh k' id hold) (hid ▸ Nat.lt_irrefl _)
    · exact h.distinct k' k'' id hold hold'
  lt_fresh k' id hk' := by
    rcases KeyMap.get?_insert_eq_some_iff.1 hk' with ⟨-, rfl⟩ | ⟨-, hk'⟩
    · exact Nat.lt_succ_self _
    · exact Nat.lt_succ_of_lt (h.lt_fresh k' id hk')
  unused id hid := h.unused id (Nat.le_of_succ_le hid)

/-- A newcomer holds the lock at once only where nobody was in line. -/
theorem Orderly.enter (h : Orderly q t) {id : Nat} (hs : t.tickets.get? s = none)
    (hk : t.table.get? k = some id) : Orderly (q ++ [(s, k)]) (t.enter s k id) where
  nodup := by
    have hnew : s ∉ q.map Prod.fst := by
      rw [List.mem_map]
      rintro ⟨⟨s', k'⟩, hmem, rfl⟩
      exact h.notMem hs k' hmem
    rw [List.map_append, List.map_cons, List.map_nil, ← List.concat_eq_append]
    exact h.nodup.concat hnew
  mem_iff s' k' := by
    rw [List.mem_append, List.mem_singleton, h.mem_iff]
    simp only [LockTable.enter, KeyMap.get?_insert_eq_some_iff]
    by_cases hs' : s' = s
    · subst hs'
      simp [hs, eq_comm]
    · simp [hs']
  entry s' k' id' held hs' := by
    rcases KeyMap.get?_insert_eq_some_iff.1 hs' with ⟨-, hticket⟩ | ⟨-, hold⟩
    · cases hticket
      exact hk
    · exact h.entry s' k' id' held hold
  first s' k' id' hs' := by
    rw [Arrivals.line_append]
    rcases KeyMap.get?_insert_eq_some_iff.1 hs' with ⟨rfl, hticket⟩ | ⟨-, hold⟩
    · injection hticket with hkey hid hfree
      subst hkey
      rw [h.mutex_eq k id hk] at hfree
      have hempty : q.line k = [] := List.head?_eq_none_iff.1 (Option.isNone_iff_eq_none.1 hfree)
      rw [if_pos rfl, hempty]
      rfl
    · have hfirst := h.first s' k' id' hold
      split
      · rw [List.head?_append, hfirst]
        rfl
      · exact hfirst
  mutex_eq k' id' hk' := by
    have hsame := h.id_eq_iff hk hk'
    rw [mutex_enter, Arrivals.line_append]
    split
    · next heq =>
      obtain rfl := hsame.1 heq
      rw [if_pos rfl, h.mutex_eq k' id hk, Mutex.enter_ofLine]
    · next hne => rw [if_neg (mt hsame.2 hne), h.mutex_eq k' id' hk']
  distinct := h.distinct
  lt_fresh := h.lt_fresh
  unused id' hid' := by
    have hne : id' ≠ id := Nat.ne_of_gt (Nat.lt_of_lt_of_le (h.lt_fresh k id hk) hid')
    simpa [LockTable.enter, hne] using h.unused id' hid'

theorem tickets_drop (t : LockTable σ κ) (s : σ) : (t.drop s).tickets.get? s = none := by
  unfold drop
  split
  · next hs => exact hs
  · dsimp only
    split
    · simp [tickets_release]
    · simp

theorem Orderly.acquire (h : Orderly q t) (s : σ) (k : κ) :
    Orderly (q.leave s ++ [(s, k)]) (t.acquire s k) := by
  have hdrop := h.drop s
  have hs := t.tickets_drop s
  unfold LockTable.acquire
  dsimp only
  split
  · next id hk => exact hdrop.enter hs hk
  · next hk =>
    refine (hdrop.make hk).enter hs ?_
    simp

theorem Orderly.grant (h : Orderly q t) {id : Nat} {held : Bool}
    (hs : t.tickets.get? s = some ⟨k, id, held⟩) (howner : (t.mutex id).owner = some s) :
    Orderly q { t with
      tickets := t.tickets.modify s fun ticket ↦ { ticket with held := true } } := by
  have hget (s' : σ) : (t.tickets.modify s fun ticket ↦ { ticket with held := true }).get? s' =
      if s' = s then some ⟨k, id, true⟩ else t.tickets.get? s' := by
    rw [KeyMap.get?_modify]
    split
    · next heq => simp [heq, hs]
    · rfl
  have hid := h.entry s k id held hs
  refine ⟨h.nodup, ?_, ?_, ?_, h.mutex_eq, h.distinct, h.lt_fresh, h.unused⟩
  · intro s' k'
    simp only [h.mem_iff, hget]
    by_cases hs' : s' = s
    · subst hs'
      simp [hs, eq_comm]
    · simp [hs']
  · intro s' k' id' held' hs'
    simp only [hget] at hs'
    split at hs'
    · cases hs'
      exact hid
    · exact h.entry s' k' id' held' hs'
  · intro s' k' id' hs'
    simp only [hget] at hs'
    split at hs'
    · next heq =>
      cases hs'
      rw [h.mutex_eq k id hid] at howner
      rw [heq]
      exact howner
    · exact h.first s' k' id' hs'

theorem Orderly.poll (h : Orderly q t) (s : σ) : Orderly q (t.poll s) := by
  unfold LockTable.poll
  split
  · exact h
  · next ticket hs =>
    split
    · next howner => exact h.grant hs howner
    · exact h

theorem Orderly.step (h : Orderly q t) (x : Step σ κ) : Orderly (q.step x) (t.step x) := by
  cases x with
  | acquire s k => exact h.acquire s k
  | poll s => exact h.poll s
  | drop s => exact h.drop s

theorem Orderly.foldl (h : Orderly q t) (steps : List (Step σ κ)) :
    Orderly (steps.foldl Arrivals.step q) (steps.foldl LockTable.step t) := by
  induction steps generalizing q t with
  | nil => exact h
  | cons x rest ih => exact ih (h.step x)

end LockTable

end AdaptiveRate
