import AdaptiveRate.Proofs.Engine.Downlink
import AdaptiveRate.Proofs.Engine.Medium
import AdaptiveRate.Proofs.Engine.Uplink

namespace AdaptiveRate.Engine

open AdaptiveRate.History

variable (e : Engine) (medium : Medium)

inductive Heard (m : Uplink) (d : Device) : Reply Uplink → Prop
  | refused {err : Error} :
      (∀ mac, m.mac = some mac → mac.adr = true ∧ accept m mac = .error err) →
      Heard m d (e.unchanged m d (.error (.error err)) [])
  | switchedOff {mac : Uplink.Mac} {result : Except Stop Unit} {store : Store}
      {log : List LogRecord} :
      m.mac = some mac → mac.adr = false → e.clear medium d.key = (result, store) →
      Heard m d ⟨result, m, d, store, log⟩
  | crashed {mac : Uplink.Mac} {metadata : Uplink.Metadata} {c : Crash} {store : Store} :
      m.mac = some mac → mac.adr = true → accept m mac = .ok metadata →
      e.push medium d.key (m.frame mac) = (.error (.crash c), store) →
      Heard m d ⟨.error (.crash c), m, d, store, []⟩
  | recorded {mac : Uplink.Mac} {metadata : Uplink.Metadata} {pushed : Except Stop Unit}
      {store : Store} {log : List LogRecord} :
      m.mac = some mac → mac.adr = true → accept m mac = .ok metadata →
      e.push medium d.key (m.frame mac) = (pushed, store) →
      (∀ c, pushed ≠ .error (.crash c)) →
      Heard m d ⟨.ok (), if mac.adrAckReq then m.acknowledge else m, d.heard mac metadata, store,
        log⟩

theorem heard (m : Uplink) (d : Device) : e.Heard medium m d (e.uplink medium m d) := by
  unfold uplink
  cases hm : m.mac with
  | none => exact .refused (by simp [hm])
  | some mac =>
    cases hadr : mac.adr with
    | false =>
      cases hclear : e.clear medium d.key with
      | mk result store => simpa [hadr, hclear] using Heard.switchedOff hm hadr hclear
    | true =>
      cases haccept : accept m mac with
      | error err => simpa [hadr, haccept] using Heard.refused (by simp [hm, hadr, haccept])
      | ok metadata =>
        simp only [hadr, haccept, Bool.not_true, Bool.false_eq_true, if_false]
        have hrecorded {pushed : Except Stop Unit} {store : Store} (log : List LogRecord)
            (hpush : e.push medium d.key (m.frame mac) = (pushed, store))
            (hpushed : ∀ c, pushed ≠ .error (.crash c)) :
            e.Heard medium m d ⟨.ok (), (note m mac metadata d).1, (note m mac metadata d).2.1,
              store, log⟩ := by
          rw [note_message, note_device]
          exact .recorded hm hadr haccept hpush hpushed
        unfold record
        split
        · next c store hpush => exact .crashed hm hadr haccept hpush
        · next err store hpush => exact hrecorded _ hpush (by simp)
        · next store hpush => exact hrecorded _ hpush (by simp)

variable {e medium} in
theorem Heard.recorded_of_ok {m : Uplink} {mac : Uplink.Mac} {d : Device} {r : Reply Uplink}
    (h : e.Heard medium m d r) (hm : m.mac = some mac) (hadr : mac.adr = true)
    (hok : r.result = .ok ()) : ∃ metadata pushed, accept m mac = .ok metadata ∧
      e.push medium d.key (m.frame mac) = (pushed, r.store) ∧
      (∀ c, pushed ≠ .error (.crash c)) ∧ r.device = d.heard mac metadata := by
  cases h with
  | refused | crashed => cases hok
  | switchedOff hm' hadr' =>
    cases hm.symm.trans hm'
    rw [hadr] at hadr'
    cases hadr'
  | recorded hm' _ haccept hpush hpushed =>
    cases hm.symm.trans hm'
    exact ⟨_, _, haccept, hpush, hpushed, rfl⟩

inductive Answered (m : Downlink) (d : Device) : Reply Downlink → Prop
  | kept {result : Except Stop Unit} {log : List LogRecord} :
      Answered m d (e.unchanged m d result log)
  | settled {log : List LogRecord} :
      Answered m d (e.unchanged m d.settle (.ok ()) log)
  | emitted {frames : List Frame} {dataRate band : String} {b : Band} {o : Order} {store : Store}
      {log : List LogRecord} :
      e.Due medium m d frames dataRate band b o → e.clear medium d.key = (.ok (), store) →
      Answered m d ⟨.ok (), m.append o.request.toCommand, d.follow o, store, log⟩

theorem answered (m : Downlink) (d : Device) : e.Answered medium m d (e.downlink medium m d) := by
  unfold downlink
  cases ha : e.assess medium m d with
  | error stop => exact .kept
  | ok v =>
    cases v with
    | nothingOwed | tooFewFrames | linkUnknown | unsupported => exact .kept
    | settled decision => exact .settled
    | order o =>
      obtain ⟨frames, dataRate, band, b, hdue⟩ := e.due_of_assess medium m d ha
      dsimp only
      split
      · next stop store hclear =>
        obtain ⟨rfl, -⟩ := clear_error hclear
        exact .kept
      · next store hclear => exact .emitted hdue hclear

end AdaptiveRate.Engine
