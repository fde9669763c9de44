import AdaptiveRate.Engine
import AdaptiveRate.Proofs.History.Ring
import AdaptiveRate.Proofs.KeyMap

namespace AdaptiveRate

open AdaptiveRate.History

namespace History.Store

variable {s s' : Store} {key : DeviceKey} {frame : Frame}

theorem clear_ok (h : s.clear key = (.ok (), s')) :
    s'.get key = .ok [] ∧ ∀ k, k ≠ key → s'.get k = s.get k := by
  unfold clear at h
  split at h
  · cases h
  · next rings hrings =>
    cases h
    exact ⟨by simp [get], fun k hk ↦ by simp [get, hrings, hk]⟩

theorem clear_error {err : StoreError} (h : s.clear key = (.error err, s')) : s' = s := by
  unfold clear at h
  split at h <;> cases h
  rfl

theorem push_ok (h : s.push key frame = (.ok (), s')) :
    (∃ frames kept, s.get key = .ok frames ∧ kept <:+ frames ∧
      s'.get key = .ok (kept ++ [frame])) ∧ ∀ k, k ≠ key → s'.get k = s.get k := by
  obtain ⟨capacity, _ | rings⟩ := s
  · cases h
  · cases hr : rings.get? key with
    | none =>
      simp only [push, hr, Option.map_none] at h
      split at h
      · next fresh hfresh =>
        obtain ⟨-, hholds⟩ := Ring.holds_make hfresh
        cases h
        refine ⟨⟨[], [], by simp [get, hr], List.nil_suffix, ?_⟩, fun k hk ↦ ?_⟩
        · simp [get, Ring.toList_push, hholds.toList_eq]
        · simp [get, hk]
      · cases h
    | some r =>
      simp only [push, hr, Option.map_some] at h
      split at h
      · cases h
      · cases h
        refine ⟨⟨r.toList, r.toList.rtake (r.capacity - 1), by simp [get, hr],
          List.drop_suffix _ _, ?_⟩, fun k hk ↦ ?_⟩
        · simp [get, hr, Ring.toList_push]
        · simp [get, hk]
      · next heq => cases heq

theorem push_error {stop : Stop} (h : s.push key frame = (.error stop, s')) :
    s' = s ∨ s'.rings = none := by
  obtain ⟨capacity, _ | rings⟩ := s
  · cases h
    exact .inl rfl
  · simp only [push] at h
    split at h
    · cases h
      exact .inr rfl
    · cases h
    · split at h
      · cases h
      · cases h
        exact .inr rfl

/-- Only a store that is lost refuses a frame. -/
theorem push_refused {err : Error} (h : s.push key frame = (.error (.error err), s')) :
    s' = s ∧ s.rings = none := by
  obtain ⟨capacity, _ | rings⟩ := s
  · cases h
    exact ⟨rfl, rfl⟩
  · simp only [push] at h
    split at h
    · cases h
    · cases h
    · split at h <;> cases h

end History.Store

namespace Engine

variable {e : Engine} {medium : Medium} {key : DeviceKey} {store : Store}

theorem get_of_frames {frames : List Frame} (h : e.frames medium key = .ok frames) :
    e.store.get key = .ok frames := by
  unfold Engine.frames at h
  cases hw : medium.get.within e.deadline with
  | error err =>
    rw [hw] at h
    cases h
  | ok =>
    rw [hw] at h
    exact h

theorem clear_ok (h : e.clear medium key = (.ok (), store)) :
    store.get key = .ok [] ∧ ∀ k, k ≠ key → store.get k = e.store.get k := by
  unfold clear at h
  split at h
  · split at h
    · next hc =>
      cases h
      exact Store.clear_ok hc
    · cases h
  · cases h

theorem clear_error {stop : Stop} (h : e.clear medium key = (.error stop, store)) :
    store = e.store ∧ ∃ err, stop = .error (.store err) := by
  unfold clear at h
  split at h
  · split at h
    · cases h
    · next err _ hc =>
      cases h
      exact ⟨Store.clear_error hc, err, rfl⟩
  · next err _ =>
    cases h
    exact ⟨rfl, err, rfl⟩

theorem store_of_clear {result : Except Stop Unit} (h : e.clear medium key = (result, store)) :
    store = e.store ∨ ∃ result, e.store.clear key = (result, store) := by
  unfold clear at h
  split at h
  · split at h
    · next hc =>
      cases h
      exact .inr ⟨_, hc⟩
    · next hc =>
      cases h
      exact .inr ⟨_, hc⟩
  · cases h
    exact .inl rfl

theorem store_of_push {frame : Frame} {pushed : Except Stop Unit}
    (h : e.push medium key frame = (pushed, store)) :
    store = e.store ∨ e.store.push key frame = (pushed, store) := by
  unfold push at h
  split at h
  · exact .inr h
  · cases h
    exact .inl rfl

theorem push_ok {frame : Frame} (h : e.push medium key frame = (.ok (), store)) :
    e.store.push key frame = (.ok (), store) := by
  unfold push at h
  split at h
  · exact h
  · cases h

theorem push_error {frame : Frame} {stop : Stop}
    (h : e.push medium key frame = (.error stop, store)) :
    store = e.store ∨ store.rings = none := by
  rcases store_of_push h with rfl | hpush
  · exact .inl rfl
  · exact Store.push_error hpush

theorem push_refused {frame : Frame} {err : Error}
    (h : e.push medium key frame = (.error (.error err), store)) : store = e.store := by
  rcases store_of_push h with rfl | hpush
  · rfl
  · exact (Store.push_refused hpush).1

theorem push_cases {frame : Frame} {pushed : Except Stop Unit}
    (h : e.push medium key frame = (pushed, store)) (hcrash : ∀ c, pushed ≠ .error (.crash c)) :
    pushed = .ok () ∧ e.store.push key frame = (.ok (), store) ∨
      pushed ≠ .ok () ∧ store = e.store := by
  cases pushed with
  | ok => exact .inl ⟨rfl, push_ok h⟩
  | error stop =>
    cases stop with
    | error err => exact .inr ⟨by simp, push_refused h⟩
    | crash c => exact absurd rfl (hcrash c)

end Engine

end AdaptiveRate
