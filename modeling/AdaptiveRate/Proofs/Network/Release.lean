import AdaptiveRate.Proofs.Network.Rate

namespace AdaptiveRate

open AdaptiveRate.History
open Function

namespace Moment

variable {ι : Type} {x : Moment ι} {key : DeviceKey}

theorem announces_of_storesUnder (h : x.storesUnder key = true) : x.Announces true key := by
  obtain ⟨hkey, hstores⟩ := storesUnder_iff.1 h
  refine ⟨hkey, ?_⟩
  unfold stores at hstores
  split at hstores
  · next m hm =>
    cases hmac : m.mac with
    | none => simp [hmac] at hstores
    | some mac =>
      simp only [hmac, Option.any_some, Bool.and_eq_true] at hstores
      exact ⟨m, mac, hm, hmac, hstores.1.1⟩
  · cases hstores

variable [DecidableEq ι]

theorem Announces.released (h : x.Announces false key) :
    (x.answer.result = .ok () ∧ x.next.engine.store.AtMost key 0) ∨
      (∃ err, x.answer.result = .error (.error (.store err))) ∧
        x.next.engine = x.network.engine ∧ x.next.devices = x.network.devices := by
  obtain ⟨rfl, m, mac, hm, hmac, hadr⟩ := h
  have heffect := x.effect
  generalize x.next = n, x.answer = a at heffect
  cases heffect with
  | answered hm' =>
    rw [hm] at hm'
    cases hm'
  | heard hm' hr hengine =>
    rw [hm] at hm'
    cases hm'
    cases hr with
    | refused hon =>
      rw [(hon mac hmac).1] at hadr
      cases hadr
    | crashed hmac' hadr' | recorded hmac' hadr' =>
      rw [hmac] at hmac'
      cases hmac'
      rw [hadr] at hadr'
      cases hadr'
    | @switchedOff _ result store log _ _ hclear =>
      cases result with
      | ok =>
        obtain ⟨hown, -⟩ := Engine.clear_ok hclear
        refine .inl ⟨rfl, ?_⟩
        rw [Network.engine, hengine]
        exact Store.atMost_of_get_nil hown
      | error stop =>
        obtain ⟨rfl, err, rfl⟩ := Engine.clear_error hclear
        refine .inr ⟨⟨err, rfl⟩, ?_, update_eq_self _ _⟩
        rw [Network.engine, hengine]

end Moment

namespace Network

variable {ι : Type} [DecidableEq ι]

/-- A device that is no longer under the control of the network is sent nothing once its history has
been cleared, and as long as that fails it is treated as if it had said nothing. -/
theorem quiet_once_released (n : Network ι) {events : List (Event ι)}
    {past between rest : List (Moment ι)} {off x : Moment ι} {key : DeviceKey}
    (hrun : n.moments events = past ++ off :: (between ++ x :: rest))
    (hoff : off.Announces false key) (hon : ∀ y ∈ between, ¬ y.Announces true key)
    (hx : x.key = key) :
    (off.answer.result = .ok () → x.answer.message.options = x.event.message.options) ∧
    (off.answer.result ≠ .ok () → off.next.engine = off.network.engine ∧
      off.next.devices = off.network.devices) := by
  rcases hoff.released with ⟨hok, hempty⟩ | ⟨⟨err, herr⟩, hsame⟩
  · refine ⟨fun _ ↦ ?_, fun hne ↦ absurd hok hne⟩
    obtain ⟨before, middle, -, rfl, hnetwork⟩ := exists_between hrun
    -- A command would need frames, and none was stored after the history had been cleared.
    refine Moment.options_eq_of_not_emits fun hemits ↦ ?_
    have hunder : x.emitsUnder key = true := Moment.emitsUnder_iff.2 ⟨hx, hemits⟩
    have hneeded := needed_le hempty hnetwork hunder
    have hnone : (off.next.moments middle).countP (·.storesUnder key) = 0 :=
      List.countP_eq_zero.2 fun y hy hstores ↦ hon y hy (Moment.announces_of_storesUnder hstores)
    rw [hnone] at hneeded
    exact absurd ((le_max_left 1 _).trans hneeded) (by decide)
  · refine ⟨fun hok ↦ ?_, fun _ ↦ hsame⟩
    rw [herr] at hok
    cases hok

theorem quiet_once_released_lone : ∃ x : Moment Unit,
    x.network = lone.after [⟨(), {}, .uplink (slowUplink true)⟩,
      ⟨(), {}, .uplink (slowUplink false)⟩] ∧
    x.event.message = .downlink {} ∧ x.record.adr.requestOwed = true ∧
    x.answer.message.options = [] := by
  have hrun : lone.moments [⟨(), {}, .uplink (slowUplink true)⟩,
      ⟨(), {}, .uplink (slowUplink false)⟩, ⟨(), {}, .downlink {}⟩] =
        [_] ++ _ :: ([] ++ _ :: []) := rfl
  obtain ⟨hquiet, -⟩ := lone.quiet_once_released hrun ⟨rfl, _, _, rfl, rfl, rfl⟩ (by simp) rfl
  exact ⟨_, rfl, rfl, by decide +kernel, hquiet (by decide +kernel)⟩

/-- The history that could not be cleared is decided on, since the request is owed as before. -/
theorem sent_after_failed_clear : ∃ start off x : Moment Unit,
    lone.moments [⟨(), {}, .uplink (slowUplink true)⟩,
      ⟨(), { clear := .silent }, .uplink (slowUplink false)⟩, ⟨(), {}, .downlink {}⟩] =
        [start, off, x] ∧
    off.Announces false ⟨"app", "dev"⟩ ∧ x.key = ⟨"app", "dev"⟩ ∧
    x.event.message = .downlink {} ∧ x.answer.message =
      .downlink { mac := some { options := [⟨0x03, [0x51, 0xFF, 0x00, 0x01]⟩] } } := by
  refine ⟨_, _, _, rfl, ⟨rfl, _, _, rfl, rfl, rfl⟩, rfl, rfl, ?_⟩
  decide +kernel

end Network

end AdaptiveRate
