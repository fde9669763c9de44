import AdaptiveRate.Proofs.Config
import AdaptiveRate.Proofs.Decision
import AdaptiveRate.Proofs.Engine.Effect

namespace AdaptiveRate.Engine

open AdaptiveRate.History

variable {e : Engine} {medium : Medium} {d : Device}

theorem judge_ne_crash (h : e.config.Valid) (frames : List Frame) (adr : AdrState)
    (dataRate band : String) (c : Crash) :
    e.judge frames adr dataRate band ≠ .error (.crash c) := by
  intro hcrash
  have hlt : e.config.maxTransmissions < 255 :=
    UInt8.lt_of_le_of_lt h.transmissions_le (by decide)
  have hj := e.judged frames adr dataRate band
  rw [hcrash] at hj
  cases hj with
  | undecided _ _ _ hdecide => exact decide_ne_crash h.transmissions_pos hlt c hdecide

theorem assess_ne_crash (h : e.config.Valid) (m : Downlink) (c : Crash) :
    e.assess medium m d ≠ .error (.crash c) := by
  intro hcrash
  have ha := e.assessed medium m d
  generalize hv : e.assess medium m d = v at ha
  rw [hcrash] at hv
  cases ha with
  | judged => exact judge_ne_crash h _ _ _ _ c hv.symm
  | _ => cases hv

theorem downlink_ne_crash (h : e.config.Valid) (m : Downlink) (c : Crash) :
    (e.downlink medium m d).result ≠ .error (.crash c) := by
  intro hcrash
  unfold downlink at hcrash
  cases ha : e.assess medium m d with
  | error stop =>
    rw [ha] at hcrash
    cases hcrash
    exact assess_ne_crash h m c ha
  | ok v =>
    rw [ha] at hcrash
    cases v with
    | nothingOwed | tooFewFrames | linkUnknown | unsupported | settled => cases hcrash
    | order o =>
      dsimp only at hcrash
      split at hcrash
      · next stop store hclear =>
        obtain ⟨-, err, rfl⟩ := clear_error hclear
        cases hcrash
      · cases hcrash

variable {m : Uplink} {r : Reply Uplink}

theorem Heard.crash_iff (h : e.Heard medium m d r) {c : Crash} :
    r.result = .error (.crash c) ↔ ∃ mac metadata, m.mac = some mac ∧ mac.adr = true ∧
      accept m mac = .ok metadata ∧
        (e.push medium d.key (m.frame mac)).1 = .error (.crash c) := by
  cases h with
  | refused hon =>
    constructor
    · intro hr
      cases hr
    · rintro ⟨mac, metadata, hm, -, haccept, -⟩
      rw [(hon mac hm).2] at haccept
      cases haccept
  | switchedOff hm hadr hclear =>
    constructor
    · rintro rfl
      obtain ⟨-, err, herr⟩ := clear_error hclear
      cases herr
    · rintro ⟨mac, metadata, hm', hadr', -⟩
      cases hm.symm.trans hm'
      rw [hadr] at hadr'
      cases hadr'
  | @crashed mac metadata c' store hm hadr haccept hpush =>
    constructor
    · intro hr
      cases hr
      exact ⟨mac, metadata, hm, hadr, haccept, by rw [hpush]⟩
    · rintro ⟨mac', metadata', hm', -, -, hcrash⟩
      cases hm.symm.trans hm'
      rw [hpush] at hcrash
      exact hcrash
  | @recorded mac metadata pushed store log hm _ _ hpush hpushed =>
    constructor
    · intro hr
      cases hr
    · rintro ⟨mac', metadata', hm', -, -, hcrash⟩
      cases hm.symm.trans hm'
      rw [hpush] at hcrash
      exact absurd hcrash (hpushed c)

end AdaptiveRate.Engine
