import AdaptiveRate.Proofs.Range

namespace Except

variable {ε α β : Type} {x : Except ε α} {b : β}

theorem bind_eq_ok {f : α → Except ε β} (h : x >>= f = .ok b) : ∃ a, x = .ok a ∧ f a = .ok b := by
  cases x with
  | error err => cases h
  | ok a => exact ⟨a, rfl, h⟩

theorem map_eq_ok {f : α → β} (h : x.map f = .ok b) : ∃ a, x = .ok a ∧ f a = b := by
  cases x with
  | error err => cases h
  | ok a => exact ⟨a, rfl, Except.ok.inj h⟩

end Except

namespace AdaptiveRate.History.Ring

inductive Op
  | push (frame : Frame)
  | clear

/-- What is done in a pool of rings: an operation on the ring at a place, or a copy of it that goes
to the end of the pool. -/
inductive Act
  | apply (i : Nat) (op : Op)
  | copy (i : Nat)

namespace Op

def run (r : Ring) : Op → Except Crash Ring
  | .push frame => if r.overflows then .error .overflow else .ok (r.push frame)
  | .clear => .ok r.clear

def isPush : Op → Bool
  | .push _ => true
  | .clear => false

end Op

namespace Act

def run (pool : List Ring) : Act → Except Crash (List Ring)
  | .apply i op =>
    match pool[i]? with
    | some r => (op.run r).map (pool.set i ·)
    | none => .ok pool
  | .copy i => .ok (pool ++ pool[i]?.toList)

def isPush : Act → Bool
  | .apply _ op => op.isPush
  | .copy _ => false

def op? (i : Nat) : Act → Option Op
  | .apply j op => if j = i then some op else none
  | .copy _ => none

end Act

def pool (capacity : Nat) (acts : List Act) : Except Crash (List Ring) :=
  match make? capacity with
  | some r => acts.foldlM Act.run [r]
  | none => .error .oversized

/-- Frames that a ring was given up to each clear, and since the last one. -/
structure Past where
  cleared : List (List Frame) := []
  recent : List Frame := []

namespace Past

/-- Frames beyond the room for `c` in each segment between clears. -/
def excess (c : Nat) (p : Past) : Nat :=
  (p.cleared ++ [p.recent]).foldl (fun n segment ↦ n + (segment.length - c)) 0

def after (p : Past) : Op → Past
  | .push frame => { p with recent := p.recent ++ [frame] }
  | .clear => { cleared := p.cleared ++ [p.recent] }

end Past

def Act.record (pasts : List Past) : Act → List Past
  | .apply i op => pasts.modify i (·.after op)
  | .copy i => pasts ++ pasts[i]?.toList

def pasts (acts : List Act) : List Past := acts.foldl Act.record [{}]

/-- A queue for the latest `c` frames. -/
structure Queue (c : Nat) (p : Past) (r : Ring) : Prop where
  capacity_eq : r.capacity = c
  toList_eq : r.toList = p.recent.rtake c
  length_eq : r.length = min p.recent.length c
  isEmpty_iff : r.isEmpty = true ↔ p.recent.length = 0
  evictions_eq : r.evictions = p.excess c
  inRange : r.InRange

structure Keeps (c n : Nat) (p : Past) (r : Ring) : Prop where
  capacity_eq : r.capacity = c
  toList_eq : r.toList = p.recent.rtake c
  evictions_eq : r.evictions = p.excess c
  count_le : r.evictions + r.length ≤ n

section Keeps

variable {c n : Nat} {p : Past} {r : Ring}

theorem Past.excess_push (frame : Frame) : (p.after (.push frame)).excess c =
    p.excess c + if p.recent.length < c then 0 else 1 := by
  simp only [Past.excess, Past.after, List.foldl_append, List.foldl_cons, List.foldl_nil,
    List.length_append, List.length_singleton]
  split <;> omega

theorem Past.excess_clear : (p.after .clear).excess c = p.excess c := by
  simp [Past.excess, Past.after]

theorem Keeps.length_eq (h : Keeps c n p r) : r.length = min p.recent.length c := by
  rw [← length_toList, h.toList_eq, List.length_rtake]

theorem Keeps.mono {m : Nat} (h : Keeps c n p r) (hle : n ≤ m) : Keeps c m p r :=
  { h with count_le := h.count_le.trans hle }

theorem Keeps.push (h : Keeps c n p r) (frame : Frame) :
    Keeps c (n + 1) (p.after (.push frame)) (r.push frame) where
  capacity_eq := by rw [capacity_push, h.capacity_eq]
  toList_eq := by
    rw [← h.capacity_eq]
    exact toList_push_of_eq frame (h.capacity_eq ▸ h.toList_eq)
  evictions_eq := by
    have hlen := h.length_eq
    rw [Past.excess_push, ← h.evictions_eq]
    split
    · next hroom => exact (r.push_of_lt frame (by rw [h.capacity_eq]; omega)).2
    · next hfull => exact (r.push_of_le frame (by rw [h.capacity_eq]; omega)).2
  count_le := by
    rw [count_push]
    exact Nat.succ_le_succ h.count_le

theorem Keeps.clear (h : Keeps c n p r) : Keeps c n (p.after .clear) r.clear where
  capacity_eq := by rw [capacity_clear, h.capacity_eq]
  toList_eq := by simp [Past.after]
  evictions_eq := by rw [evictions_clear, Past.excess_clear, h.evictions_eq]
  count_le := by
    rw [evictions_clear, length_clear]
    exact (Nat.le_add_right _ _).trans h.count_le

theorem Keeps.run (h : Keeps c n p r) (hn : n < UInt64.size) (op : Op) :
    ∃ r', op.run r = .ok r' ∧ Keeps c (n + if op.isPush then 1 else 0) (p.after op) r' := by
  cases op with
  | push frame =>
    have hcount : r.overflows = false := r.not_overflows (h.count_le.trans_lt hn)
    exact ⟨r.push frame, by simp [Op.run, hcount], h.push frame⟩
  | clear => exact ⟨r.clear, rfl, h.clear⟩

theorem Keeps.queue (h : Keeps c n p r) (hcap : c * frameBytes ≤ maxBytes)
    (hn : n < UInt64.size) : Queue c p r where
  capacity_eq := h.capacity_eq
  toList_eq := h.toList_eq
  length_eq := h.length_eq
  isEmpty_iff := by
    have hpos := r.capacity_pos
    have hlen := h.length_eq
    rw [h.capacity_eq] at hpos
    rw [isEmpty, Array.isEmpty_iff_size_eq_zero, ← length]
    omega
  evictions_eq := h.evictions_eq
  inRange := inRange (h.capacity_eq ▸ hcap) (h.count_le.trans_lt hn)

end Keeps

structure Accounts (c n : Nat) (pasts : List Past) (pool : List Ring) : Prop where
  length_eq : pool.length = pasts.length
  keeps : ∀ (i : Nat) p r, pasts[i]? = some p → pool[i]? = some r → Keeps c n p r

section Accounts

variable {c n : Nat} {pasts : List Past} {rings : List Ring}

theorem Accounts.exists_past (h : Accounts c n pasts rings) {i : Nat} {r : Ring}
    (hr : rings[i]? = some r) : ∃ p, pasts[i]? = some p ∧ Keeps c n p r := by
  obtain ⟨hlt, -⟩ := List.getElem?_eq_some_iff.1 hr
  rw [h.length_eq] at hlt
  exact ⟨pasts[i], List.getElem?_eq_getElem hlt, h.keeps i _ r (List.getElem?_eq_getElem hlt) hr⟩

theorem Accounts.mono {m : Nat} (h : Accounts c n pasts rings) (hle : n ≤ m) :
    Accounts c m pasts rings :=
  { h with keeps := fun i p r hp hr ↦ (h.keeps i p r hp hr).mono hle }

theorem Accounts.set (h : Accounts c n pasts rings) {m i : Nat} {f : Past → Past} {p : Past}
    {r : Ring} (hle : n ≤ m) (hp : pasts[i]? = some p) (hkeeps : Keeps c m (f p) r) :
    Accounts c m (pasts.modify i f) (rings.set i r) where
  length_eq := by simp [h.length_eq]
  keeps := by
    intro j p' r' hmodify hr
    rw [List.getElem?_modify] at hmodify
    obtain ⟨past, hpast, rfl⟩ := Option.map_eq_some_iff.1 hmodify
    rw [List.getElem?_set] at hr
    split at hr
    · next heq =>
      subst heq
      cases hp.symm.trans hpast
      rw [if_pos rfl]
      split at hr
      · cases hr
        exact hkeeps
      · cases hr
    · next hne =>
      rw [if_neg hne]
      exact (h.keeps j past r' hpast hr).mono hle

theorem Accounts.append (h : Accounts c n pasts rings) {p : Past} {r : Ring}
    (hkeeps : Keeps c n p r) : Accounts c n (pasts ++ [p]) (rings ++ [r]) where
  length_eq := by simp [h.length_eq]
  keeps := by
    intro i p' r' hp hr
    rw [List.getElem?_append] at hp hr
    rw [← h.length_eq] at hp
    split at hr
    · next hlt => exact h.keeps i p' r' (by simpa [hlt] using hp) hr
    · next hge =>
      rw [if_neg hge, List.getElem?_singleton] at hp
      rw [List.getElem?_singleton] at hr
      split at hr
      · next hend =>
        rw [if_pos hend] at hp
        cases hp
        cases hr
        exact hkeeps
      · cases hr

theorem Accounts.run (h : Accounts c n pasts rings) (hn : n < UInt64.size) (act : Act) :
    ∃ rings', act.run rings = .ok rings' ∧
      Accounts c (n + if act.isPush then 1 else 0) (act.record pasts) rings' := by
  cases act with
  | copy i =>
    refine ⟨rings ++ rings[i]?.toList, rfl, ?_⟩
    cases hr : rings[i]? with
    | none =>
      have hp : pasts[i]? = none := by
        rw [List.getElem?_eq_none_iff, ← h.length_eq]
        exact List.getElem?_eq_none_iff.1 hr
      simpa [Act.record, Act.isPush, hp] using h
    | some r =>
      obtain ⟨p, hp, hkeeps⟩ := h.exists_past hr
      simpa [Act.record, Act.isPush, hp] using h.append hkeeps
  | apply i op =>
    cases hr : rings[i]? with
    | none =>
      refine ⟨rings, by simp [Act.run, hr], ?_⟩
      have hle : pasts.length ≤ i := h.length_eq ▸ List.getElem?_eq_none_iff.1 hr
      rw [Act.record, List.modify_eq_self hle]
      exact h.mono (Nat.le_add_right _ _)
    | some r =>
      obtain ⟨p, hp, hkeeps⟩ := h.exists_past hr
      obtain ⟨r', hop, hkept⟩ := hkeeps.run hn op
      refine ⟨rings.set i r', by simp only [Act.run, hr, hop]; rfl, ?_⟩
      exact h.set (Nat.le_add_right _ _) hp hkept

theorem Accounts.run_all (acts : List Act) (h : Accounts c n pasts rings)
    (hn : n + acts.countP Act.isPush < UInt64.size) :
    ∃ rings', acts.foldlM Act.run rings = .ok rings' ∧
      Accounts c (n + acts.countP Act.isPush) (acts.foldl Act.record pasts) rings' := by
  -- Each push takes one from the frames that can still be counted, so the bound moves with the run.
  induction acts generalizing n pasts rings with
  | nil => exact ⟨rings, rfl, h⟩
  | cons act acts ih =>
    rw [List.countP_cons, Nat.add_comm (acts.countP _), ← Nat.add_assoc] at hn ⊢
    obtain ⟨next, hnext, hkept⟩ := h.run (by omega) act
    obtain ⟨last, hlast, hkept⟩ := ih hkept hn
    exact ⟨last, by rw [List.foldlM_cons, hnext]; exact hlast, hkept⟩

end Accounts

theorem Act.getElem?_run {act : Act} {rings rings' : List Ring} {i : Nat} {r : Ring}
    (h : act.run rings = .ok rings') (hr : rings[i]? = some r) :
    ∃ r', rings'[i]? = some r' ∧ (act.op? i).toList.foldlM Op.run r = .ok r' := by
  obtain ⟨hlt, -⟩ := List.getElem?_eq_some_iff.1 hr
  cases act with
  | copy j =>
    cases h
    exact ⟨r, by rw [List.getElem?_append_left hlt, hr], rfl⟩
  | apply j op =>
    simp only [Act.run] at h
    by_cases heq : j = i
    · subst heq
      rw [hr] at h
      obtain ⟨r', hop, rfl⟩ := Except.map_eq_ok h
      exact ⟨r', List.getElem?_set_self hlt, by simpa [Act.op?] using hop⟩
    · rw [Act.op?, if_neg heq]
      split at h
      · obtain ⟨r', -, rfl⟩ := Except.map_eq_ok h
        exact ⟨r, by rw [List.getElem?_set_ne heq, hr], rfl⟩
      · cases h
        exact ⟨r, hr, rfl⟩

/-- What becomes of a ring is what the operations on it alone make of it. -/
theorem getElem?_run_all (acts : List Act) {rings rings' : List Ring} {i : Nat} {r : Ring}
    (h : acts.foldlM Act.run rings = .ok rings') (hr : rings[i]? = some r) :
    ∃ r', rings'[i]? = some r' ∧ (acts.filterMap (Act.op? i)).foldlM Op.run r = .ok r' := by
  induction acts generalizing rings r with
  | nil =>
    cases h
    exact ⟨r, hr, rfl⟩
  | cons act acts ih =>
    rw [List.foldlM_cons] at h
    obtain ⟨next, hnext, hlast⟩ := Except.bind_eq_ok h
    obtain ⟨r', hr', hop⟩ := Act.getElem?_run hnext hr
    obtain ⟨r'', hr'', hops⟩ := ih hlast hr'
    refine ⟨r'', hr'', ?_⟩
    rw [List.filterMap_cons]
    cases hact : act.op? i with
    | none =>
      rw [hact] at hop
      cases hop
      exact hops
    | some op =>
      rw [hact, Option.toList_some, List.foldlM_cons] at hop
      obtain ⟨_, hop, hnil⟩ := Except.bind_eq_ok hop
      cases hnil
      rw [List.foldlM_cons, hop]
      exact hops

theorem accounts_make {capacity : Nat} {r : Ring} (h : make? capacity = some r) :
    Accounts (max capacity 1) 0 [{}] [r] where
  length_eq := rfl
  keeps := by
    obtain ⟨hcap, hholds⟩ := holds_make h
    have hcount : r.evictions + r.length = 0 := hholds.count_eq
    intro i p r' hp hr
    rw [List.getElem?_singleton] at hp hr
    split at hr
    · next hzero =>
      rw [if_pos hzero] at hp
      cases hp
      cases hr
      refine ⟨hcap, hcap ▸ hholds.toList_eq, ?_, hcount.le⟩
      simpa [Past.excess] using (Nat.add_eq_zero_iff.1 hcount).1
    · cases hr

/-- Every ring that comes from a new one by pushes, clears and copies is a queue for the latest
frames, and a ring and its copy go on as if the other were not there. -/
theorem queues_of_pool {capacity : Nat} {acts : List Act} (hroom : capacity * 12 ≤ 2 ^ 63 - 1)
    (hpushes : acts.countP Act.isPush < 2 ^ 64) :
    ∃ rings, pool capacity acts = .ok rings ∧ rings.length = (pasts acts).length ∧
      (∀ (i : Nat) p r, (pasts acts)[i]? = some p → rings[i]? = some r →
        Queue (max capacity 1) p r) ∧
      ∀ before after, acts = before ++ after → ∃ earlier, pool capacity before = .ok earlier ∧
        ∀ (i : Nat) r, earlier[i]? = some r → ∃ r', rings[i]? = some r' ∧
          (after.filterMap (Act.op? i)).foldlM Op.run r = .ok r' := by
  have hcap : Store.Affordable capacity := Store.affordable_iff.2 hroom
  obtain ⟨fresh, hfresh⟩ : ∃ fresh, make? capacity = some fresh :=
    ⟨_, if_neg (Nat.not_lt.2 hcap)⟩
  have hcount : 0 + acts.countP Act.isPush < UInt64.size := by
    rw [Nat.zero_add]
    exact hpushes
  obtain ⟨rings, hrings, haccounts⟩ := (accounts_make hfresh).run_all acts hcount
  refine ⟨rings, by simpa only [pool, hfresh] using hrings, haccounts.length_eq,
    fun i p r hp hr ↦ (haccounts.keeps i p r hp hr).queue hcap hcount, ?_⟩
  rintro before after rfl
  rw [List.foldlM_append] at hrings
  obtain ⟨earlier, hearlier, hlast⟩ := Except.bind_eq_ok hrings
  exact ⟨earlier, by simpa only [pool, hfresh] using hearlier,
    fun i r hr ↦ getElem?_run_all after hlast hr⟩

def plain (counter : UInt32) : Frame := ⟨counter, .zero false, 1⟩

def forked : List Act :=
  [.apply 0 (.push (plain 1)), .apply 0 (.push (plain 2)), .apply 0 (.push (plain 3)), .copy 0,
    .apply 1 (.push (plain 4)), .apply 0 .clear]

theorem queues_of_pool_forked : 2 * 12 ≤ 2 ^ 63 - 1 ∧
    forked.countP Act.isPush < 2 ^ 64 ∧
    ∃ original duplicate, pool 2 forked = .ok [original, duplicate] ∧
      original.toList = [] ∧ original.evictions = 1 ∧
      duplicate.toList = [plain 3, plain 4] ∧ duplicate.evictions = 2 := by
  have hroom : 2 * 12 ≤ 2 ^ 63 - 1 := by decide
  have hpushes : forked.countP Act.isPush < 2 ^ 64 := by decide
  obtain ⟨rings, hrings, hlen, hqueues, -⟩ := queues_of_pool hroom hpushes
  obtain ⟨original, duplicate, rfl⟩ := List.length_eq_two.1 hlen
  have horiginal := hqueues 0 _ original rfl rfl
  have hduplicate := hqueues 1 _ duplicate rfl rfl
  exact ⟨hroom, hpushes, original, duplicate, hrings, horiginal.toList_eq, horiginal.evictions_eq,
    hduplicate.toList_eq, hduplicate.evictions_eq⟩

end AdaptiveRate.History.Ring
