import AdaptiveRate.Proofs.Engine.Downlink
import AdaptiveRate.Proofs.Engine.Medium
import Mathlib.Logic.ExistsUnique

namespace AdaptiveRate

open AdaptiveRate.History

inductive Outcome
  | refused
  | idle
  | settled
  | emitted
  deriving DecidableEq

namespace Outcome

/-- What a downlink with this outcome leaves behind, against what was there before. -/
def Describes (e : Engine) (m : Downlink) (d : Device) (r : Reply Downlink) : Outcome → Prop
  | refused => (∃ err, r.result = .error (.error err)) ∧
      r.message = m ∧ r.device = d ∧ r.store = e.store
  | idle => r.result = .ok () ∧ r.message = m ∧ r.device = d ∧ r.store = e.store
  | settled => r.result = .ok () ∧ r.message = m ∧ d.adr.requestOwed = true ∧
      r.device = { d with adr := { d.adr with requestOwed := false } } ∧ r.store = e.store
  | emitted => r.result = .ok () ∧
      (∃ mac c, m.mac = some mac ∧ r.message = ⟨some ⟨mac.ack, mac.options ++ [c]⟩⟩) ∧
      (∃ rate power n, r.device = { d with adr := { d.adr with
        dataRate := rate, txPower := power, transmissions := n, requestOwed := false } }) ∧
      r.store.get d.key = .ok [] ∧ ∀ k, k ≠ d.key → r.store.get k = e.store.get k

variable {e : Engine} {m : Downlink} {d : Device} {r : Reply Downlink}

theorem Describes.result_ne (h : refused.Describes e m d r) : r.result ≠ .ok () := by
  obtain ⟨⟨err, he⟩, -⟩ := h
  simp [he]

theorem Describes.device_ne (h : settled.Describes e m d r) : r.device ≠ d := by
  obtain ⟨-, -, ho, hd, -⟩ := h
  intro hsame
  have hkept : d.adr.requestOwed = false := by rw [← hsame, hd]
  rw [ho] at hkept
  cases hkept

theorem Describes.message_ne (h : emitted.Describes e m d r) : r.message ≠ m := by
  obtain ⟨-, ⟨mac, c, hm, hr⟩, -⟩ := h
  intro hsame
  have hlen := congrArg (·.options.length) (hr.symm.trans hsame)
  simp [Downlink.options, hm] at hlen

theorem Describes.unique {o o' : Outcome} (h : o.Describes e m d r)
    (h' : o'.Describes e m d r) : o = o' := by
  cases o <;> cases o'
  case refused.refused | idle.idle | settled.settled | emitted.emitted => rfl
  case refused.idle | refused.settled | refused.emitted => exact absurd h'.1 h.result_ne
  case idle.refused | settled.refused | emitted.refused => exact absurd h.1 h'.result_ne
  case idle.settled => exact absurd h.2.2.1 h'.device_ne
  case settled.idle => exact absurd h'.2.2.1 h.device_ne
  case idle.emitted | settled.emitted => exact absurd h.2.1 h'.message_ne
  case emitted.idle | emitted.settled => exact absurd h'.2.1 h.message_ne

end Outcome

namespace Engine

variable (e : Engine) (medium : Medium) (m : Downlink) (d : Device)

/-- Everything is checked before the history is cleared, and all that follows cannot fail. -/
theorem downlink_outcome (h : ∀ c, (e.downlink medium m d).result ≠ .error (.crash c)) :
    ∃! o : Outcome, o.Describes e m d (e.downlink medium m d) := by
  suffices ∃ o : Outcome, o.Describes e m d (e.downlink medium m d) by
    obtain ⟨o, ho⟩ := this
    exact ⟨o, ho, fun o' ho' ↦ ho'.unique ho⟩
  unfold downlink at h ⊢
  cases ha : e.assess medium m d with
  | error stop =>
    simp only [ha, unchanged] at h ⊢
    cases stop with
    | error err => exact ⟨.refused, ⟨err, rfl⟩, rfl, rfl, rfl⟩
    | crash c => exact absurd rfl (h c)
  | ok v =>
    cases v with
    | nothingOwed | tooFewFrames | linkUnknown | unsupported =>
      exact ⟨.idle, rfl, rfl, rfl, rfl⟩
    | settled decision =>
      have howed := e.requestOwed_of_assess medium m d ha (by simp)
      exact ⟨.settled, rfl, rfl, howed, rfl, rfl⟩
    | order o =>
      obtain ⟨frames, dataRate, band, b, hdue⟩ := e.due_of_assess medium m d ha
      obtain ⟨mac, hm⟩ := hdue.mac
      dsimp only
      split
      · next stop store hc =>
        obtain ⟨rfl, err, rfl⟩ := clear_error hc
        exact ⟨.refused, ⟨_, rfl⟩, rfl, rfl, rfl⟩
      · next store hc =>
        obtain ⟨hown, hother⟩ := clear_ok hc
        refine ⟨.emitted, rfl, ⟨mac, o.request.toCommand, hm, ?_⟩, ⟨_, _, _, rfl⟩, hown, hother⟩
        simp [Downlink.append, hm]

theorem downlink_outcome_silent : ∃! o : Outcome, o.Describes heardWell {} slowDevice
    (heardWell.downlink { clear := .silent } {} slowDevice) := by
  refine downlink_outcome _ _ _ _ fun c hc ↦ ?_
  have herr : ((heardWell.downlink { clear := .silent } {} slowDevice).result matches
      .error (.error _)) = true := by decide +kernel
  rw [hc] at herr
  cases herr

end Engine

end AdaptiveRate
