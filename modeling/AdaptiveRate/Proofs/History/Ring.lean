import AdaptiveRate.History.Ring
import Mathlib.Data.List.DropRight

namespace List

variable {α : Type} (l : List α)

theorem length_rtake (n : Nat) : (l.rtake n).length = min l.length n := by
  simp only [rtake, length_drop]
  omega

theorem rtake_rtake (m n : Nat) : (l.rtake n).rtake m = l.rtake (min m n) := by
  simp only [rtake, length_drop, drop_drop]
  congr 1
  omega

theorem rtake_of_length_le {l : List α} {n : Nat} (h : l.length ≤ n) : l.rtake n = l := by
  simp [rtake, Nat.sub_eq_zero_of_le h]

end List

namespace AdaptiveRate.History.Ring

variable (r : Ring) (frame : Frame)

theorem capacity_pos : 0 < r.capacity := Nat.zero_lt_of_lt r.head_lt

@[simp]
theorem length_toList : r.toList.length = r.length := by
  simp only [toList, length, List.length_append, List.length_drop, List.length_take,
    Array.length_toList]
  omega

@[simp]
theorem capacity_push : (r.push frame).capacity = r.capacity := by
  simp only [push]
  split <;> rfl

theorem push_of_lt (h : r.length < r.capacity) :
    (r.push frame).length = r.length + 1 ∧ (r.push frame).evictions = r.evictions := by
  have hlt : r.slots.size < r.capacity := h
  simp [push, length, hlt]

theorem push_of_le (h : r.capacity ≤ r.length) :
    (r.push frame).length = r.length ∧ (r.push frame).evictions = r.evictions + 1 := by
  have hle : ¬ r.slots.size < r.capacity := Nat.not_lt.2 h
  simp [push, length, hle]

theorem exists_slots (h : r.capacity ≤ r.length) : ∃ newer oldest older,
    r.slots.toList = newer ++ oldest :: older ∧ newer.length = r.head ∧
      newer.length + older.length + 1 = r.capacity := by
  have hlen : r.slots.toList.length = r.capacity := Nat.le_antisymm r.size_le h
  have hlt : r.head < r.slots.toList.length := hlen ▸ r.head_lt
  refine ⟨r.slots.toList.take r.head, r.slots.toList[r.head],
    r.slots.toList.drop (r.head + 1), ?_, List.length_take_of_le hlt.le, ?_⟩
  · rw [← List.drop_eq_getElem_cons hlt, List.take_append_drop]
  · rw [List.length_take_of_le hlt.le, List.length_drop]
    omega

@[simp]
theorem capacity_clear : r.clear.capacity = r.capacity := rfl

@[simp]
theorem evictions_clear : r.clear.evictions = r.evictions := rfl

@[simp]
theorem length_clear : r.clear.length = 0 := rfl

@[simp]
theorem toList_clear : r.clear.toList = [] := rfl

theorem toList_push : (r.push frame).toList = r.toList.rtake (r.capacity - 1) ++ [frame] := by
  by_cases hroom : r.length < r.capacity
  · have hlt : r.slots.size < r.capacity := hroom
    have hh : r.head = 0 := r.head_eq hlt
    rw [List.rtake_of_length_le (by rw [length_toList]; omega)]
    simp [push, toList, hlt, hh]
  · have hle : ¬ r.slots.size < r.capacity := hroom
    obtain ⟨newer, oldest, older, hslots, hhead, hcap⟩ := r.exists_slots (Nat.not_lt.1 hroom)
    have hset : r.slots.toList.set r.head frame = newer ++ frame :: older := by
      rw [hslots, ← hhead]
      simp
    have hold : r.toList.rtake (r.capacity - 1) = older ++ newer := by
      rw [toList, hslots, ← hhead, List.drop_left, List.take_left, List.cons_append, List.rtake]
      have : (oldest :: (older ++ newer)).length - (r.capacity - 1) = 1 := by
        simp only [List.length_cons, List.length_append]
        omega
      rw [this, List.drop_one, List.tail_cons]
    have hnew : (r.push frame).toList =
        (newer ++ frame :: older).drop ((newer.length + 1) % r.capacity) ++
          (newer ++ frame :: older).take ((newer.length + 1) % r.capacity) := by
      simp [push, toList, hle, hset, hhead]
    rw [hnew, hold]
    -- The head moves on past the new frame, and round to the start if that was in the last slot.
    cases older with
    | nil =>
      have hwrap : (newer.length + 1) % r.capacity = 0 := by
        rw [← hcap]
        simp
      simp [hwrap]
    | cons next older =>
      have hnext : (newer.length + 1) % r.capacity = (newer ++ [frame]).length := by
        rw [List.length_append, List.length_singleton]
        apply Nat.mod_eq_of_lt
        simp only [List.length_cons] at hcap
        omega
      rw [hnext, List.append_cons newer frame (next :: older), List.drop_left, List.take_left,
        List.append_assoc]

variable {r} in
theorem toList_push_of_eq {past : List Frame} (h : r.toList = past.rtake r.capacity) :
    (r.push frame).toList = (past ++ [frame]).rtake r.capacity := by
  have hcap := r.capacity_pos
  have hmin : min (r.capacity - 1) r.capacity = r.capacity - 1 := by omega
  rw [toList_push, h, List.rtake_rtake, hmin, ← List.rtake_concat_succ, Nat.sub_add_cancel hcap]

theorem count_push : (r.push frame).evictions + (r.push frame).length =
    r.evictions + r.length + 1 := by
  by_cases hroom : r.length < r.capacity
  · obtain ⟨hl, he⟩ := r.push_of_lt frame hroom
    omega
  · obtain ⟨hl, he⟩ := r.push_of_le frame (Nat.not_lt.1 hroom)
    omega

theorem not_overflows (h : r.evictions + r.length < UInt64.size) : r.overflows = false := by
  have hcap := r.capacity_pos
  simp only [length] at h
  simp only [overflows, Bool.and_eq_false_iff, decide_eq_false_iff_not, not_le]
  omega

/-- The ring was made empty and has since been pushed these frames. -/
structure Holds (past : List Frame) : Prop where
  toList_eq : r.toList = past.rtake r.capacity
  count_eq : r.evictions + r.length = past.length

variable {r} {past : List Frame}

theorem Holds.length_eq (h : r.Holds past) : r.length = min past.length r.capacity := by
  rw [← length_toList, h.toList_eq, List.length_rtake]

theorem Holds.push (h : r.Holds past) : (r.push frame).Holds (past ++ [frame]) where
  toList_eq := by rw [capacity_push, toList_push_of_eq frame h.toList_eq]
  count_eq := by rw [count_push, h.count_eq, List.length_append, List.length_singleton]

theorem holds_make {capacity : Nat} (h : make? capacity = some r) :
    r.capacity = max capacity 1 ∧ r.Holds [] := by
  unfold make? at h
  split at h
  · cases h
  · cases h
    exact ⟨rfl, by simp [toList], rfl⟩

/-- Evictions cannot outnumber the frames pushed before. -/
theorem Holds.not_overflows (h : r.Holds past) (hlen : past.length < UInt64.size) :
    r.overflows = false :=
  r.not_overflows (h.count_eq ▸ hlen)

end AdaptiveRate.History.Ring
