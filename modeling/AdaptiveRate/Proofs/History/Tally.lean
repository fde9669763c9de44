import AdaptiveRate.Proofs.History.Store
import AdaptiveRate.Proofs.Machine
import Mathlib.Algebra.BigOperators.Group.Finset.Piecewise
import Mathlib.Algebra.Order.BigOperators.Group.Finset

theorem List.countP_eq_foldl {α : Type} (p : α → Bool) (l : List α) :
    l.countP p = l.foldl (fun n a ↦ n + (p a).toNat) 0 := by
  have hsum : l.countP p = (l.map fun a ↦ (p a).toNat).sum := by
    induction l with
    | nil => rfl
    | cons a l ih => cases h : p a <;> simp [h, ih, Nat.add_comm]
  rw [hsum, sum_eq_foldl, foldl_map]

namespace AdaptiveRate

open Function

namespace KeyMap

variable {κ α : Type} [DecidableEq κ] (m : KeyMap κ α)

/-- The keys need not be those of the map, as long as no other key counts for anything. -/
theorem sum_values (f : α → Nat) (keys : Finset κ)
    (h : ∀ k, k ∉ keys → ((m.get? k).map f).getD 0 = 0) :
    m.values.foldl (fun n a ↦ n + f a) 0 = ∑ k ∈ keys, ((m.get? k).map f).getD 0 := by
  have hentries : m.values.map f = m.keys.map fun k ↦ ((m.get? k).map f).getD 0 := by
    rw [values, KeyMap.keys, List.map_map, List.map_map]
    apply List.map_congr_left
    intro e he
    have hget : m.get? e.1 = some e.2 := m.get?_eq_some_iff.2 he
    simp [hget]
  have habsent : ∀ k, k ∉ m.keys.toFinset → ((m.get? k).map f).getD 0 = 0 := by
    intro k hk
    cases hget : m.get? k with
    | none => rfl
    | some a => exact absurd (List.mem_toFinset.2 (m.mem_keys_iff.2 ⟨a, hget⟩)) hk
  have hnodup : m.keys.Nodup := m.nodup
  rw [← List.foldl_map, ← List.sum_eq_foldl, hentries, ← List.sum_toFinset _ hnodup]
  calc ∑ k ∈ m.keys.toFinset, ((m.get? k).map f).getD 0
      = ∑ k ∈ m.keys.toFinset ∪ keys, ((m.get? k).map f).getD 0 :=
        Finset.sum_subset Finset.subset_union_left fun k _ hk ↦ habsent k hk
    _ = ∑ k ∈ keys, ((m.get? k).map f).getD 0 :=
        (Finset.sum_subset Finset.subset_union_right fun k _ hk ↦ h k hk).symm

end KeyMap

namespace History

namespace Ring.Slot

variable {capacity : Nat} {slot : Option Ring} {past : List Frame}

theorem length_eq (h : Slot capacity slot past) :
    (slot.map Ring.length).getD 0 = min past.length (max capacity 1) := by
  cases slot with
  | none =>
    obtain rfl : past = [] := h
    simp
  | some r =>
    obtain ⟨hcap, hholds⟩ := h
    rw [← hcap]
    exact hholds.length_eq

theorem evictions_eq (h : Slot capacity slot past) :
    (slot.map Ring.evictions).getD 0 = past.length - min past.length (max capacity 1) := by
  cases slot with
  | none =>
    obtain rfl : past = [] := h
    simp
  | some r =>
    obtain ⟨hcap, hholds⟩ := h
    have hlen := hholds.length_eq
    have hcount := hholds.count_eq
    rw [hcap] at hlen
    simp only [Option.map_some, Option.getD_some]
    omega

theorem occupied_eq (h : Slot capacity slot past) :
    (slot.map fun r ↦ (!r.isEmpty).toNat).getD 0 = if past ≠ [] then 1 else 0 := by
  cases slot with
  | none =>
    obtain rfl : past = [] := h
    simp
  | some r =>
    obtain ⟨hcap, hholds⟩ := h
    have hlen := hholds.length_eq
    have hempty : r.isEmpty = true ↔ past = [] := by
      rw [Ring.isEmpty, Array.isEmpty_iff_size_eq_zero, ← List.length_eq_zero_iff]
      change r.length = 0 ↔ _
      omega
    by_cases hpast : past = []
    · simp [hempty.2 hpast, hpast]
    · simp [Bool.eq_false_iff.2 fun hr ↦ hpast (hempty.1 hr), hpast]

end Ring.Slot

namespace Store

variable {s : Store} {past : DeviceKey → List Frame}

/-- The keys that have frames, the frames that fit in `kept` places each, and those that do not. -/
def totals (kept : Nat) (past : DeviceKey → List Frame) (keys : Finset DeviceKey) : Stats where
  devices := (keys.filter fun key ↦ past key ≠ []).card
  frames := ∑ key ∈ keys, min (past key).length kept
  evictions := ∑ key ∈ keys, ((past key).length - min (past key).length kept)

theorem totals_add (kept : Nat) (past : DeviceKey → List Frame) (keys : Finset DeviceKey) :
    (totals kept past keys).frames + (totals kept past keys).evictions =
      ∑ key ∈ keys, (past key).length := by
  simp only [totals, ← Finset.sum_add_distrib]
  apply Finset.sum_congr rfl
  intro key _
  omega

theorem Keeps.stats (h : s.Keeps past) (keys : Finset DeviceKey)
    (hkeys : ∀ key, key ∉ keys → past key = []) :
    s.stats = .ok (totals (max s.capacity 1) past keys) := by
  obtain ⟨rings, hrings, hslot⟩ := h.slots
  have hlength (key : DeviceKey) := (hslot key).length_eq
  have hevictions (key : DeviceKey) := (hslot key).evictions_eq
  have hoccupied (key : DeviceKey) := (hslot key).occupied_eq
  have hdevices : rings.values.countP (!·.isEmpty) =
      (keys.filter fun key ↦ past key ≠ []).card := by
    have hsum := rings.sum_values (fun r ↦ (!r.isEmpty).toNat) keys
      fun key hkey ↦ by simp [hoccupied, hkeys key hkey]
    simp only [hoccupied] at hsum
    rw [List.countP_eq_foldl, hsum, Finset.card_filter]
  have hframes : rings.values.foldl (fun n r ↦ n + r.length) 0 =
      ∑ key ∈ keys, min (past key).length (max s.capacity 1) := by
    have hsum := rings.sum_values Ring.length keys
      fun key hkey ↦ by simp [hlength, hkeys key hkey]
    simpa only [hlength] using hsum
  have hevicted : rings.values.foldl (fun n r ↦ n + r.evictions) 0 = ∑ key ∈ keys,
      ((past key).length - min (past key).length (max s.capacity 1)) := by
    have hsum := rings.sum_values Ring.evictions keys
      fun key hkey ↦ by simp [hevictions, hkeys key hkey]
    simpa only [hevictions] using hsum
  simp only [Store.stats, hrings, hdevices, hframes, hevicted, totals]

inductive Op
  | push (key : DeviceKey) (frame : Frame)
  | get (key : DeviceKey)
  | clear (key : DeviceKey)

def Op.key : Op → DeviceKey
  | push key _ | get key | clear key => key

def serve (s : Store) : Op → Store × Except Stop (List Frame)
  | .push key frame =>
    let (result, s) := s.push key frame
    (s, result.map fun _ ↦ [])
  | .get key => (s, (s.get key).mapError fun err ↦ .error (.store err))
  | .clear key =>
    let (result, s) := s.clear key
    (s, (result.map fun _ ↦ []).mapError fun err ↦ .error (.store err))

/-- Lists that hold all frames since the last clear, of which the latest are read. -/
def remember (kept : Nat) (past : DeviceKey → List Frame) :
    Op → (DeviceKey → List Frame) × Except Stop (List Frame)
  | .push key frame => (update past key (past key ++ [frame]), .ok [])
  | .get key => (past, .ok ((past key).rtake kept))
  | .clear key => (update past key [], .ok [])

theorem remember_of_ne {kept : Nat} {op : Op} {key : DeviceKey} (h : key ≠ op.key) :
    (remember kept past op).1 key = past key := by
  cases op with
  | push | clear => exact update_of_ne h _ _
  | get => rfl

theorem sum_update_le (keys : Finset DeviceKey) {key : DeviceKey} {frames : List Frame}
    (h : frames.length ≤ (past key).length + 1) :
    ∑ k ∈ keys, (update past key frames k).length ≤ ∑ k ∈ keys, (past k).length + 1 := by
  calc ∑ k ∈ keys, (update past key frames k).length
      ≤ ∑ k ∈ keys, ((past k).length + if k = key then 1 else 0) := by
        apply Finset.sum_le_sum
        intro k _
        by_cases hk : k = key
        · subst hk
          simpa using h
        · simp [hk]
    _ = ∑ k ∈ keys, (past k).length + if key ∈ keys then 1 else 0 := by
        rw [Finset.sum_add_distrib, Finset.sum_ite_eq']
    _ ≤ ∑ k ∈ keys, (past k).length + 1 := by
        split <;> omega

structure Remembers (s : Store) (capacity : Nat) (past : DeviceKey → List Frame) (n : Nat) :
    Prop where
  keeps : s.Keeps past
  capacity_eq : s.capacity = capacity
  sum_le : ∀ keys : Finset DeviceKey, ∑ key ∈ keys, (past key).length ≤ n

variable {capacity n : Nat}

theorem remembers_empty (capacity : Nat) : (empty capacity).Remembers capacity (fun _ ↦ []) 0 where
  keeps := keeps_empty capacity
  capacity_eq := rfl
  sum_le := by simp

theorem Remembers.length_le (h : s.Remembers capacity past n) (key : DeviceKey) :
    (past key).length ≤ n := by
  simpa using h.sum_le {key}

theorem Remembers.serve (h : s.Remembers capacity past n) (hcap : Affordable capacity)
    (hn : n < UInt64.size) (op : Op) :
    (s.serve op).2 = (remember (max capacity 1) past op).2 ∧
      (s.serve op).1.Remembers capacity (remember (max capacity 1) past op).1 (n + 1) := by
  have hsum {key : DeviceKey} {frames : List Frame}
      (hlen : frames.length ≤ (past key).length + 1) (keys : Finset DeviceKey) :
      ∑ k ∈ keys, (update past key frames k).length ≤ n + 1 :=
    (sum_update_le keys hlen).trans (Nat.add_le_add_right (h.sum_le keys) 1)
  cases op with
  | push key frame =>
    obtain ⟨s', hpush, hcap', hkeeps⟩ := h.keeps.push (h.capacity_eq ▸ hcap) key frame
      ((h.length_le key).trans_lt hn)
    simp only [Store.serve, hpush, remember]
    exact ⟨rfl, hkeeps, hcap'.trans h.capacity_eq, hsum (by simp)⟩
  | get key =>
    simp only [Store.serve, h.keeps.get key, remember, h.capacity_eq]
    exact ⟨rfl, h.keeps, h.capacity_eq, fun keys ↦ (h.sum_le keys).trans n.le_succ⟩
  | clear key =>
    obtain ⟨s', hclear, hcap', hkeeps⟩ := h.keeps.clear key
    simp only [Store.serve, hclear, remember]
    exact ⟨rfl, hkeeps, hcap'.trans h.capacity_eq, hsum (by simp)⟩

def after (capacity : Nat) (ops : List Op) : Store × List (Except Stop (List Frame)) :=
  Machine.run serve (empty capacity) ops

def remembered (kept : Nat) (ops : List Op) :
    (DeviceKey → List Frame) × List (Except Stop (List Frame)) :=
  Machine.run (remember kept) (fun _ ↦ []) ops

variable {ops : List Op}

theorem run_remember_of_notMem {kept : Nat} {key : DeviceKey} (h : key ∉ ops.map Op.key) :
    (Machine.run (remember kept) past ops).1 key = past key := by
  induction ops generalizing past with
  | nil => rfl
  | cons op ops ih =>
    obtain ⟨hop, hops⟩ := not_or.1 (mt List.mem_cons.2 h)
    exact (ih hops).trans (remember_of_ne hop)

theorem after_remembers (hcap : Affordable capacity) (hops : ops.length ≤ UInt64.size) :
    (after capacity ops).2 = (remembered (max capacity 1) ops).2 ∧
      (after capacity ops).1.Remembers capacity (remembered (max capacity 1) ops).1 ops.length := by
  have hrun := Machine.run_simulates (R := fun n (s : Store) past ↦ s.Remembers capacity past n)
    (fun n s past op hn h ↦ h.serve hcap hn op) ops (n := 0) (by omega) (remembers_empty capacity)
  rw [Nat.zero_add] at hrun
  exact hrun

/-- Keys do not mix, no frame is lost before it has to be, and the totals fit in 64 bits. -/
theorem get_eq_remembered (capacity : Nat) (ops : List Op) (hroom : capacity * 12 ≤ 2 ^ 63 - 1)
    (hops : ops.length < 2 ^ 64) :
    (after capacity ops).2 = (remembered (max capacity 1) ops).2 ∧
      (∀ key, (after capacity ops).1.get key =
        .ok (((remembered (max capacity 1) ops).1 key).rtake (max capacity 1))) ∧
      ∃ stats, (after capacity ops).1.stats = .ok stats ∧
        stats = totals (max capacity 1) (remembered (max capacity 1) ops).1
          (ops.map Op.key).toFinset ∧
        stats.frames + stats.evictions < 2 ^ 64 := by
  have hcap : Affordable capacity := affordable_iff.2 hroom
  obtain ⟨hanswers, hremembers⟩ := after_remembers hcap hops.le
  have hstats := hremembers.keeps.stats (ops.map Op.key).toFinset
    fun key hkey ↦ run_remember_of_notMem (mt List.mem_toFinset.2 hkey)
  rw [hremembers.capacity_eq] at hstats
  refine ⟨hanswers, fun key ↦ ?_, _, hstats, rfl, ?_⟩
  · rw [hremembers.keeps.get key, hremembers.capacity_eq]
  · rw [totals_add]
    exact (hremembers.sum_le _).trans_lt hops

theorem get_eq_remembered_of_three : ∃ stats : Stats,
    (after 2 [.push ⟨"app", "a"⟩ ⟨1, .zero false, 1⟩, .push ⟨"app", "b"⟩ ⟨7, .zero false, 1⟩,
      .push ⟨"app", "a"⟩ ⟨2, .zero false, 1⟩, .clear ⟨"app", "b"⟩,
      .push ⟨"app", "a"⟩ ⟨3, .zero false, 1⟩]).1.stats = .ok stats ∧
    stats = ⟨1, 2, 1⟩ := by
  obtain ⟨-, -, stats, hstats, htotals, -⟩ := get_eq_remembered 2
    [.push ⟨"app", "a"⟩ ⟨1, .zero false, 1⟩, .push ⟨"app", "b"⟩ ⟨7, .zero false, 1⟩,
      .push ⟨"app", "a"⟩ ⟨2, .zero false, 1⟩, .clear ⟨"app", "b"⟩,
      .push ⟨"app", "a"⟩ ⟨3, .zero false, 1⟩] (by decide) (by decide)
  refine ⟨stats, hstats, htotals.trans ?_⟩
  decide +kernel

end Store

end History

end AdaptiveRate
