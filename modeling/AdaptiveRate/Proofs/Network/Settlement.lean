import AdaptiveRate.Proofs.Engine.Settlement
import AdaptiveRate.Proofs.Network

namespace AdaptiveRate

open AdaptiveRate.History
open Function

namespace Engine

variable {e : Engine} {medium : Medium} {key k : DeviceKey} {store : Store}

theorem get_of_push_of_ne {frame : Frame} {pushed : Except Stop Unit} (hk : key ≠ k)
    (h : e.push medium k frame = (pushed, store)) :
    store.get key = e.store.get key ∨ store.rings = none := by
  cases pushed with
  | ok => exact .inl ((Store.push_ok (push_ok h)).2 key hk)
  | error stop =>
    rcases push_error h with rfl | hlost
    · exact .inl rfl
    · exact .inr hlost

theorem get_of_clear_of_ne {result : Except Stop Unit} (hk : key ≠ k)
    (h : e.clear medium k = (result, store)) : store.get key = e.store.get key := by
  cases result with
  | ok => exact (clear_ok h).2 key hk
  | error => rw [(clear_error h).1]

end Engine

namespace Moment

variable {ι : Type} [DecidableEq ι] {x : Moment ι} {i : ι} {key : DeviceKey} {room : Nat}

/-- An uplink that informs is accepted, and the medium keeps no frame from the store. -/
def Informs (x : Moment ι) : Prop := ∃ m, x.event.message = .uplink m ∧ m.Informs ∧
  x.event.medium.push = .prompt ∧ x.answer.result = .ok ()

theorem uniform_next (h : x.network.engine.store.Uniform room) :
    x.next.engine.store.Uniform room := by
  have heffect := x.effect
  generalize x.next = n, x.answer = a at heffect
  cases heffect with
  | heard _ hr hengine =>
    rw [Network.engine, hengine]
    exact hr.uniform h
  | answered _ hr hengine =>
    rw [Network.engine, hengine]
    cases hr with
    | kept | settled => exact h
    | emitted _ hclear => exact Engine.uniform_clear h hclear

theorem get_next_of_ne (h : key ≠ x.key) :
    x.next.engine.store.get key = x.network.engine.store.get key ∨
      x.next.engine.store.rings = none := by
  have heffect := x.effect
  generalize x.next = n, x.answer = a at heffect
  cases heffect with
  | heard _ hr hengine =>
    rw [Network.engine, hengine]
    cases hr with
    | refused => exact .inl rfl
    | switchedOff _ _ hclear => exact .inl (Engine.get_of_clear_of_ne h hclear)
    | crashed _ _ _ hpush | recorded _ _ _ hpush => exact Engine.get_of_push_of_ne h hpush
  | answered _ hr hengine =>
    rw [Network.engine, hengine]
    cases hr with
    | kept | settled => exact .inl rfl
    | emitted _ hclear => exact .inl (Engine.get_of_clear_of_ne h hclear)

theorem atLeast_next_of_ne {n : Nat} (h : key ≠ x.key)
    (hn : x.network.engine.store.AtLeast key n) : x.next.engine.store.AtLeast key n := by
  rcases get_next_of_ne h with hget | hlost
  · exact hn.congr hget
  · exact Store.atLeast_of_lost hlost

theorem Informs.learned (h : x.Informs) : ∃ m, x.event.message = .uplink m ∧
    Engine.Learned m x.record (x.next.devices x.event.device) := by
  obtain ⟨m, hm, hinforms, -, hok⟩ := h
  refine ⟨m, hm, ?_⟩
  have heffect := x.effect
  generalize x.next = n, x.answer = a at heffect hok
  cases heffect with
  | answered hm' => cases hm.symm.trans hm'
  | heard hm' hr =>
    cases hm.symm.trans hm'
    dsimp only
    rw [update_self]
    exact hr.learned hinforms hok

theorem Informs.atLeast {n : Nat} (h : x.Informs)
    (huniform : x.network.engine.store.Uniform room)
    (hn : x.network.engine.store.AtLeast x.key (min n room)) :
    x.next.engine.store.AtLeast x.key (min (n + 1) room) := by
  obtain ⟨m, hm, hinforms, hprompt, hok⟩ := h
  have heffect := x.effect
  generalize x.next = n', x.answer = a at heffect hok
  cases heffect with
  | answered hm' => cases hm.symm.trans hm'
  | heard hm' hr hengine =>
    cases hm.symm.trans hm'
    rw [Network.engine, hengine]
    exact hr.atLeast hprompt hinforms hok huniform hn

/-- What these uplinks of a device have provided, if nothing else came under its key. -/
structure Provided (i : ι) (d : Device) (room : Nat) (past : List (Moment ι)) (n : Network ι) :
    Prop where
  uniform : n.engine.store.Uniform room
  key : (n.devices i).key = d.key
  placed : (n.devices i).adr.Placed
  blank : (n.devices i).adr.band = some "" ↔ d.adr.band = some ""
  atLeast : n.engine.store.AtLeast d.key (min (past.countP (·.event.device = i)) room)
  known : ∀ y ∈ past, y.event.device = i →
    (∃ dataRate, (n.devices i).adr.dataRate = some dataRate ∧ dataRate ≠ "") ∧
      ∃ band, (n.devices i).adr.band = some band
  owed : ∀ y ∈ past, y.asksFor i = true → (n.devices i).adr.requestOwed = true

variable {d : Device} {past : List (Moment ι)}

theorem Provided.other (h : Provided i d room past x.network) (hx : x.key ≠ d.key) :
    Provided i d room (past ++ [x]) x.next := by
  have hi : i ≠ x.event.device := by
    rintro rfl
    exact hx h.key
  have hsame := x.devices_next_of_ne hi
  refine ⟨uniform_next h.uniform, ?_, ?_, ?_, ?_, ?_, ?_⟩
  · rw [hsame, h.key]
  · rw [hsame]
    exact h.placed
  · rw [hsame, h.blank]
  · have hcount : (past ++ [x]).countP (·.event.device = i) = past.countP (·.event.device = i) := by
      simp [Ne.symm hi]
    rw [hcount]
    exact atLeast_next_of_ne (Ne.symm hx) h.atLeast
  · refine List.forall_mem_append.2 ⟨?_, List.forall_mem_singleton.2 ?_⟩
    · rw [hsame]
      exact h.known
    · exact fun hdevice ↦ absurd hdevice.symm hi
  · refine List.forall_mem_append.2 ⟨?_, List.forall_mem_singleton.2 ?_⟩
    · rw [hsame]
      exact h.owed
    · intro hasks
      exact absurd (asksFor_iff.1 hasks).1.symm hi

theorem Provided.own (h : Provided x.event.device d room past x.network) (hx : x.Informs) :
    Provided x.event.device d room (past ++ [x]) x.next := by
  obtain ⟨m, hm, hlearned⟩ := hx.learned
  obtain ⟨band, hband, hblank⟩ := hlearned.band
  have hkey : x.key = d.key := h.key
  refine ⟨uniform_next h.uniform, hlearned.key.trans h.key, hlearned.placed h.placed, ?_, ?_,
    fun _ _ _ ↦ ⟨hlearned.dataRate, band, hband⟩, ?_⟩
  · rw [hband, Option.some_inj, hblank]
    exact h.blank
  · have hatLeast := h.atLeast
    rw [← hkey] at hatLeast ⊢
    simpa using hx.atLeast h.uniform hatLeast
  · rw [hlearned.owed]
    refine List.forall_mem_append.2 ⟨?_, List.forall_mem_singleton.2 ?_⟩
    · intro y hy hasks
      have howed : x.record.adr.requestOwed = true := h.owed y hy hasks
      rw [howed, Bool.true_or]
    · intro hasks
      have hask := (asksFor_iff.1 hasks).2
      simp only [asks, hm, Bool.and_eq_true] at hask
      cases hmac : m.mac with
      | none => simp [hmac] at hask
      | some mac =>
        simp only [hmac, Option.any_some, Bool.and_eq_true] at hask
        rw [Option.any_some, hask.1.2, Bool.or_true]

end Moment

namespace Network

open Moment

variable {ι : Type} [DecidableEq ι] {n : Network ι} {i : ι} {d : Device} {room : Nat}

theorem provided_after {past : List (Moment ι)} {events : List (Event ι)}
    (h : Provided i d room past n)
    (hrun : ∀ y ∈ n.moments events, y.key ≠ d.key ∨ y.event.device = i ∧ y.Informs) :
    Provided i d room (past ++ n.moments events) (n.after events) := by
  induction events generalizing n past with
  | nil => simpa [moments] using h
  | cons e events ih =>
    obtain ⟨hfirst, hrest⟩ := List.forall_mem_cons.1 hrun
    have hnext : Provided i d room (past ++ [⟨n, e⟩]) (n.step e).1 := by
      rcases hfirst with hother | ⟨rfl, hinforms⟩
      · exact Provided.other h hother
      · exact Provided.own h hinforms
    rw [moments, List.append_cons]
    exact ih hnext hrest

theorem provided_nil (h : n.engine.store.Uniform room) (hplaced : (n.devices i).adr.Placed) :
    Provided i (n.devices i) room [] n where
  uniform := h
  key := rfl
  placed := hplaced
  blank := Iff.rfl
  atLeast := by simpa using Store.atLeast_zero _ _
  known := by simp
  owed := by simp

theorem uniform_after (h : n.engine.store.Uniform room) (events : List (Event ι)) :
    (n.after events).engine.store.Uniform room :=
  after_induction (P := fun n' ↦ n'.engine.store.Uniform room) (fun _ hx ↦ uniform_next hx) h events

theorem countP_moments (n : Network ι) (events : List (Event ι)) (i : ι) :
    (n.moments events).countP (·.event.device = i) = events.countP (·.device = i) := by
  induction events generalizing n with
  | nil => rfl
  | cons e events ih => simp only [moments, List.countP_cons, ih]

/-- A device that asks, and of which nothing but informing uplinks has come, as many as a decision
needs, is not left waiting by the next downlink, unless its band was blank to begin with. -/
theorem waits_iff_blank (n : Network ι) {config : Config}
    (hstart : n.service = .start (.inMemory config)) (hvalid : config.validate = .ok ())
    (before during : List (Event ι)) (i : ι)
    (hplaced : ((n.after before).devices i).adr.Placed)
    (hrun : ∀ y ∈ (n.after before).moments during,
      y.key ≠ ((n.after before).devices i).key ∨ y.event.device = i ∧ y.Informs)
    (hmany : config.minHistory.toNat ≤ during.countP (·.device = i))
    (hasks : ∃ y ∈ (n.after before).moments during, y.asksFor i = true)
    (medium : Medium) (m : Downlink) (hmac : m.mac ≠ none) :
    let a := (((n.after before).after during).step ⟨i, medium, .downlink m⟩).2
    (∃ err, a.result = .error (.error err)) ∨ a.result = .ok () ∧
      (a.device.adr.requestOwed = true ↔ ((n.after before).devices i).adr.band = some "") := by
  have hv := Config.validate_eq_ok_iff.1 hvalid
  have hengine : n.engine = .inMemory config := congrArg Service.engine hstart
  have hconfig : ((n.after before).after during).engine.config = config := by
    rw [config_after, config_after, hengine]
    rfl
  have huniform : n.engine.store.Uniform (max config.historyCapacity.toNat 1) := by
    rw [hengine]
    exact Store.uniform_empty _
  have hprovided := provided_after (provided_nil (uniform_after huniform before) hplaced) hrun
  rw [List.nil_append] at hprovided
  -- The uplink that asks is one of those that inform, so data rate and band are recorded by now.
  obtain ⟨y, hy, hask⟩ := hasks
  obtain ⟨⟨dataRate, hrate, hne⟩, band, hband⟩ := hprovided.known y hy (asksFor_iff.1 hask).1
  have hframes : ((n.after before).after during).engine.store.AtLeast
      (((n.after before).after during).devices i).key
      ((n.after before).after during).engine.config.minHistory.toNat := by
    intro frames hget
    rw [hprovided.key] at hget
    have hlen := hprovided.atLeast frames hget
    have hle : config.minHistory.toNat ≤ config.historyCapacity.toNat := hv.minHistory_le
    rw [countP_moments] at hlen
    rw [hconfig]
    omega
  have hblank := hprovided.blank
  rw [hband, Option.some_inj] at hblank
  have hsettles := Engine.downlink_settles medium (hconfig ▸ hv)
    (hprovided.owed y hy hask) hmac hframes hrate hne hband hprovided.placed
  rw [hblank] at hsettles
  exact hsettles

def solitary (band : Option String) : Network Unit :=
  ⟨.start (.inMemory { minHistory := 1 }), fun _ ↦ ⟨"app", "dev", { band }⟩⟩

theorem informs_slowUplink : (slowUplink true).Informs :=
  ⟨⟨_, rfl, rfl⟩, _, _, .eu863, rfl, by decide, rfl, rfl, rfl⟩

theorem settled_lone :
    (((solitary none).after [⟨(), {}, .uplink (slowUplink true)⟩]).step
      ⟨(), {}, .downlink {}⟩).2.device.adr.requestOwed = false := by
  have hvalid : Config.validate { minHistory := 1 } = .ok () := by decide +kernel
  have hsettles := (solitary none).waits_iff_blank rfl hvalid []
    [⟨(), {}, .uplink (slowUplink true)⟩] () (fun _ h ↦ by cases h)
    (List.forall_mem_singleton.2 (.inr ⟨rfl, _, rfl, informs_slowUplink, rfl, rfl⟩)) (by decide)
    ⟨_, List.mem_cons_self, by decide +kernel⟩ {} {} (by simp)
  have hok : (((solitary none).after [⟨(), {}, .uplink (slowUplink true)⟩]).step
      ⟨(), {}, .downlink {}⟩).2.result = .ok () := by decide +kernel
  simp only [after_nil] at hsettles
  rcases hsettles with ⟨err, herr⟩ | ⟨-, hwaits⟩
  · rw [hok] at herr
    cases herr
  · exact Bool.eq_false_iff.2 fun howed ↦ Option.some_ne_none "" (hwaits.1 howed).symm

/-- The uplink leaves the blank band as it is, and the downlink takes it for unknown. -/
theorem waits_with_blank_band : ∃ up down : Answer, (slowUplink true).Informs ∧
    up = ((solitary (some "")).step ⟨(), {}, .uplink (slowUplink true)⟩).2 ∧
    up.result = .ok () ∧ up.device.adr.requestOwed = true ∧
    down = (((solitary (some "")).after [⟨(), {}, .uplink (slowUplink true)⟩]).step
      ⟨(), {}, .downlink {}⟩).2 ∧
    down.result = .ok () ∧ down.device.adr.requestOwed = true := by
  refine ⟨_, _, informs_slowUplink, rfl, ?_, ?_, rfl, ?_, ?_⟩
  all_goals decide +kernel

end Network

end AdaptiveRate
