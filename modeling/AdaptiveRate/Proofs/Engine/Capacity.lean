import AdaptiveRate.Proofs.Engine.Downlink
import AdaptiveRate.Proofs.History.Room
import AdaptiveRate.Proofs.History.Tally

namespace AdaptiveRate

open AdaptiveRate.History

namespace History.Store

variable {s : Store} {room capacity : Nat} {key : DeviceKey}

theorem Uniform.serve (h : s.Uniform room) (op : Op) : (s.serve op).1.Uniform room := by
  cases op with
  | push key frame => exact h.push rfl
  | get key => exact h
  | clear key => exact h.clear rfl

theorem Uniform.run (h : s.Uniform room) (ops : List Op) :
    (Machine.run Store.serve s ops).1.Uniform room := by
  induction ops generalizing s with
  | nil => exact h
  | cons op ops ih => exact ih (h.serve op)

theorem Uniform.length_le {frames : List Frame} (h : s.Uniform room)
    (hget : s.get key = .ok frames) : frames.length ≤ room := by
  rw [← h.2 key]
  exact length_le_room hget

def repeated (key : DeviceKey) (frame : Frame) (n : Nat) : List Op :=
  List.replicate n (.push key frame)

theorem run_remember_repeated {kept : Nat} {past : DeviceKey → List Frame} (frame : Frame)
    (n : Nat) : (Machine.run (remember kept) past (repeated key frame n)).1 key =
      past key ++ List.replicate n frame := by
  induction n generalizing past with
  | zero => simp [repeated, Machine.run]
  | succ n ih =>
    have hnext : (remember kept past (.push key frame)).1 key = past key ++ [frame] :=
      Function.update_self key _ past
    change (Machine.run (remember kept) (remember kept past (.push key frame)).1
      (repeated key frame n)).1 key = _
    rw [ih, hnext, List.append_assoc, List.replicate_succ, List.singleton_append]

theorem get_repeated {n : Nat} (hcap : Affordable capacity) (hn : n ≤ max capacity 1)
    (frame : Frame) : (after capacity (repeated key frame n)).1.get key =
      .ok (List.replicate n frame) := by
  have hcount : (repeated key frame n).length ≤ UInt64.size := by
    rw [repeated, List.length_replicate]
    simp only [Affordable, Ring.frameBytes, Ring.maxBytes, UInt64.size] at hcap ⊢
    omega
  obtain ⟨-, hremembers⟩ := after_remembers hcap hcount
  rw [hremembers.keeps.get key, hremembers.capacity_eq, remembered, run_remember_repeated]
  rw [List.nil_append, List.rtake_of_length_le (by rw [List.length_replicate]; exact hn)]

end History.Store

namespace Engine

variable {e : Engine} {capacity : Nat} {config : Config} {m : Downlink} {d : Device}

def following (e : Engine) (ops : List Store.Op) : Engine :=
  { e with store := (Machine.run Store.serve e.store ops).1 }

/-- The downlink is not turned away for want of frames, though a request is owed. -/
structure Passes (e : Engine) (m : Downlink) (d : Device) : Prop where
  owed : d.adr.requestOwed = true
  mac : m.mac.isSome = true
  enough : ∃ frames, e.store.get d.key = .ok frames ∧
    e.assess {} m d ≠ .ok (.tooFewFrames frames.length)

theorem frames_prompt (e : Engine) (key : DeviceKey) : e.frames {} key = e.store.get key := rfl

theorem passes_iff (howed : d.adr.requestOwed = true) (hmac : m.mac.isSome = true) :
    e.Passes m d ↔ ∃ frames, e.store.get d.key = .ok frames ∧ ¬ e.Few frames := by
  have ha := e.assessed {} m d
  constructor
  · intro h
    obtain ⟨frames, hget, hpass⟩ := h.enough
    refine ⟨frames, hget, fun hfew ↦ hpass ?_⟩
    generalize e.assess {} m d = v at ha
    cases ha with
    | nothingOwed hnot => rw [howed] at hnot; cases hnot
    | malformed _ hnone => rw [hnone] at hmac; cases hmac
    | unread _ _ hread =>
      rw [frames_prompt, hget] at hread
      cases hread
    | tooFewFrames _ _ hread =>
      rw [frames_prompt, hget] at hread
      cases hread
      rfl
    | linkUnknown _ _ hread hmany | judged _ _ hread hmany =>
      rw [frames_prompt, hget] at hread
      cases hread
      exact absurd hfew hmany
  · rintro ⟨frames, hget, hmany⟩
    refine ⟨howed, hmac, frames, hget, fun hfew ↦ ?_⟩
    generalize hv : e.assess {} m d = v at ha
    rw [hfew] at hv
    cases ha with
    | tooFewFrames _ _ hread hfew' =>
      rw [frames_prompt, hget] at hread
      cases hread
      exact hmany hfew'
    | @judged _ frames' dataRate band =>
      have hj := e.judged frames' d.adr dataRate band
      rw [← hv] at hj
      cases hj
    | _ => cases hv

theorem checkCapacity_eq_error_iff : (∃ err, (ofCapacity capacity config).checkCapacity =
    .error err) ↔ capacity < config.minHistory.toNat := by
  have hcheck : (ofCapacity capacity config).checkCapacity =
      if capacity < config.minHistory.toNat then
        .error (.config ("history store keeps " ++ toString capacity ++
          " frames per device, decisions need " ++ toString config.minHistory))
      else .ok () := rfl
  rw [hcheck]
  constructor
  · rintro ⟨err, herr⟩
    by_contra hge
    rw [if_neg hge] at herr
    cases herr
  · intro hlt
    exact ⟨_, if_pos hlt⟩

theorem length_le_of_following {ops : List Store.Op} {key : DeviceKey} {frames : List Frame}
    (h : ((ofCapacity capacity config).following ops).store.get key = .ok frames) :
    frames.length ≤ max capacity 1 :=
  ((Store.uniform_empty capacity).run ops).length_le h

theorem not_few_iff {frames : List Frame} :
    ¬ e.Few frames ↔ max e.config.minHistory.toNat 1 ≤ frames.length := by
  have hnil : frames = [] ↔ frames.length = 0 := List.length_eq_zero_iff.symm
  rw [Few, hnil]
  omega

/-- What is needed of a history, and what there can be of it, is at least one frame either way. -/
theorem exists_passes_iff (hroom : Store.Affordable capacity) :
    (∃ ops m d, ((ofCapacity capacity config).following ops).Passes m d) ↔
      max config.minHistory.toNat 1 ≤ max capacity 1 := by
  constructor
  · rintro ⟨ops, m, d, hpass⟩
    obtain ⟨frames, hget, hmany⟩ := (passes_iff hpass.owed hpass.mac).1 hpass
    exact (not_few_iff.1 hmany).trans (length_le_of_following hget)
  · intro hle
    refine ⟨Store.repeated slowDevice.key ⟨7, .ofNat 10, 1⟩ (max capacity 1), {}, slowDevice, ?_⟩
    rw [passes_iff rfl rfl]
    refine ⟨_, Store.get_repeated hroom le_rfl ⟨7, .ofNat 10, 1⟩, ?_⟩
    rw [not_few_iff, List.length_replicate]
    exact hle

/-- The warning is exact for every store but one: a store made for no frames keeps one, and an
engine that needs one frame is warned all the same. -/
theorem warns_iff (capacity : Nat) (config : Config) (hroom : capacity * 12 ≤ 2 ^ 63 - 1) :
    ((∃ err, (ofCapacity capacity config).checkCapacity = .error err) ↔
      (∀ ops m d, ¬ ((ofCapacity capacity config).following ops).Passes m d) ∨
        capacity = 0 ∧ config.minHistory = 1) ∧
    (∀ ops key frames, ((ofCapacity capacity config).following ops).store.get key = .ok frames →
      frames.length ≤ max capacity 1) ∧
    ∀ key, ∃ ops frames, ((ofCapacity capacity config).following ops).store.get key = .ok frames ∧
      frames.length = max capacity 1 := by
  have haffordable : Store.Affordable capacity := Store.affordable_iff.2 hroom
  refine ⟨?_, fun ops key frames hget ↦ length_le_of_following hget, fun key ↦ ?_⟩
  · have hnone : (∀ ops m d, ¬ ((ofCapacity capacity config).following ops).Passes m d) ↔
        ¬ max config.minHistory.toNat 1 ≤ max capacity 1 := by
      rw [← exists_passes_iff haffordable]
      simp only [not_exists]
    have hone : config.minHistory = 1 ↔ config.minHistory.toNat = 1 := UInt64.toNat_inj.symm
    rw [checkCapacity_eq_error_iff, hnone, hone]
    omega
  · exact ⟨Store.repeated key ⟨7, .ofNat 10, 1⟩ (max capacity 1), _,
      Store.get_repeated haffordable le_rfl ⟨7, .ofNat 10, 1⟩, List.length_replicate⟩

theorem warns_of_eight : 8 * 12 ≤ 2 ^ 63 - 1 ∧
    ∀ ops m d, ¬ ((ofCapacity 8 {}).following ops).Passes m d := by
  have hroom : 8 * 12 ≤ 2 ^ 63 - 1 := by decide
  obtain ⟨hwarns, -⟩ := warns_iff 8 {} hroom
  have herr : ∃ err, (ofCapacity 8 {}).checkCapacity = .error err := ⟨_, rfl⟩
  rcases hwarns.1 herr with hnone | ⟨hzero, -⟩
  · exact ⟨hroom, hnone⟩
  · cases hzero

/-- With no frames asked for, the one frame pushed is kept, and it is enough. -/
theorem passes_despite_warning : ∃ (config : Config) (ops : List Store.Op) (m : Downlink)
    (d : Device), config.minHistory = 1 ∧
      (∃ err, (ofCapacity 0 config).checkCapacity = .error err) ∧
      ((ofCapacity 0 config).following ops).Passes m d := by
  refine ⟨{ minHistory := 1 }, [.push slowDevice.key ⟨7, .ofNat 10, 1⟩], {}, slowDevice, rfl,
    ⟨_, rfl⟩, rfl, rfl, [⟨7, .ofNat 10, 1⟩], rfl, ?_⟩
  decide +kernel

end Engine

end AdaptiveRate
