import AdaptiveRate.History.Store
import AdaptiveRate.Proofs.History.Ring
import AdaptiveRate.Proofs.KeyMap

namespace AdaptiveRate.History

/-- A history with a frame added, which costs it the oldest if there is no room left. -/
def extend (room : Nat) (frames : List Frame) (frame : Frame) : List Frame :=
  (if frames.length < room then frames else frames.tail) ++ [frame]

theorem length_extend {room : Nat} {frames : List Frame} (hpos : 0 < room)
    (h : frames.length ≤ room) (frame : Frame) :
    (extend room frames frame).length = min (frames.length + 1) room := by
  unfold extend
  split
  · simp only [List.length_append, List.length_singleton]
    omega
  · simp only [List.length_append, List.length_tail, List.length_singleton]
    omega

theorem Ring.length_le (r : Ring) : r.toList.length ≤ r.capacity := by
  rw [length_toList]
  exact r.size_le

theorem Ring.toList_push_eq_extend (r : Ring) (frame : Frame) :
    (r.push frame).toList = extend r.capacity r.toList frame := by
  have hpos := r.capacity_pos
  rw [toList_push, extend]
  congr 1
  split
  · next hroom => exact List.rtake_of_length_le (by omega)
  · next hfull =>
    have hle := r.length_le
    have hone : r.toList.length - (r.capacity - 1) = 1 := by omega
    rw [List.rtake, hone, List.drop_one]

namespace Store

def room (s : Store) (key : DeviceKey) : Nat :=
  ((s.rings.bind (·.get? key)).map Ring.capacity).getD (max s.capacity 1)

def Uniform (s : Store) (room : Nat) : Prop := max s.capacity 1 = room ∧ ∀ key, s.room key = room

variable {s s' : Store} {key : DeviceKey} {frame : Frame} {room : Nat}

theorem room_pos (s : Store) (key : DeviceKey) : 0 < s.room key := by
  unfold room
  cases s.rings.bind (·.get? key) with
  | none => exact Nat.lt_of_lt_of_le Nat.zero_lt_one (Nat.le_max_right _ _)
  | some r => exact r.capacity_pos

theorem length_le_room {frames : List Frame} (h : s.get key = .ok frames) :
    frames.length ≤ s.room key := by
  obtain ⟨capacity, _ | rings⟩ := s
  · cases h
  · cases hr : rings.get? key with
    | none =>
      simp only [get, hr] at h
      cases h
      exact Nat.zero_le _
    | some r =>
      simp only [get, hr] at h
      cases h
      simpa [room, hr] using r.length_le

theorem get_push (h : s.push key frame = (.ok (), s')) :
    ∃ frames, s.get key = .ok frames ∧ s'.get key = .ok (extend (s.room key) frames frame) := by
  obtain ⟨capacity, _ | rings⟩ := s
  · cases h
  · cases hr : rings.get? key with
    | none =>
      simp only [push, hr, Option.map_none] at h
      split at h
      · next fresh hfresh =>
        obtain ⟨hcap, hholds⟩ := Ring.holds_make hfresh
        cases h
        refine ⟨[], by simp [get, hr], ?_⟩
        simp [get, room, hr, Ring.toList_push_eq_extend, hholds.toList_eq, hcap]
      · cases h
    | some r =>
      simp only [push, hr, Option.map_some] at h
      split at h
      · cases h
      · cases h
        refine ⟨r.toList, by simp [get, hr], ?_⟩
        simp [get, room, hr, Ring.toList_push_eq_extend]
      · next heq => cases heq

theorem uniform_of_lost (h : s.rings = none) : s.Uniform (max s.capacity 1) :=
  ⟨rfl, fun key ↦ by simp [Store.room, h]⟩

theorem uniform_empty (capacity : Nat) : (empty capacity).Uniform (max capacity 1) :=
  ⟨rfl, fun _ ↦ rfl⟩

theorem Uniform.push {result : Except Stop Unit} (h : s.Uniform room)
    (hpush : s.push key frame = (result, s')) : s'.Uniform room := by
  obtain ⟨capacity, _ | rings⟩ := s
  · cases hpush
    exact h
  · obtain ⟨rfl, hroom⟩ := h
    simp only [Store.push] at hpush
    split at hpush
    · cases hpush
      exact uniform_of_lost rfl
    · cases hpush
      refine ⟨rfl, fun k ↦ ?_⟩
      have hkept : ((rings.modify key (·.push frame)).get? k).map Ring.capacity =
          (rings.get? k).map Ring.capacity := by
        rw [KeyMap.get?_modify]
        split
        · cases rings.get? k <;> simp
        · rfl
      simp only [Store.room, Option.bind_some, hkept]
      exact hroom k
    · split at hpush
      · next fresh hfresh =>
        obtain ⟨hcap, -⟩ := Ring.holds_make hfresh
        cases hpush
        refine ⟨rfl, fun k ↦ ?_⟩
        by_cases hkey : k = key
        · simp [Store.room, hkey, hcap]
        · simpa [Store.room, hkey] using hroom k
      · cases hpush
        exact uniform_of_lost rfl

theorem Uniform.clear {result : Except StoreError Unit} (h : s.Uniform room)
    (hclear : s.clear key = (result, s')) : s'.Uniform room := by
  obtain ⟨capacity, _ | rings⟩ := s
  · cases hclear
    exact h
  · obtain ⟨rfl, hroom⟩ := h
    cases hclear
    refine ⟨rfl, fun k ↦ ?_⟩
    by_cases hkey : k = key
    · simp [Store.room, hkey]
    · simpa [Store.room, hkey] using hroom k

end Store

end AdaptiveRate.History
