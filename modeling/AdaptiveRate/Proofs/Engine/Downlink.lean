import AdaptiveRate.Engine.Downlink
import AdaptiveRate.Proofs.Decision
import AdaptiveRate.Proofs.Mac.LinkRequest

namespace AdaptiveRate

structure ChannelPlan.Places (p : ChannelPlan) (decision : Decision) (o : Order) : Prop where
  decision_eq : o.decision = decision
  request_eq : o.request = ⟨decision.target.dataRate, decision.target.txPower, p.defaultMask, 0,
    decision.target.transmissions⟩
  inRange : o.request.InRange
  dataRate : ∃ rate, p.dataRateByIndex decision.target.dataRate = some rate ∧
    o.dataRate = rate.name
  power : p.txPowerDbm decision.target.txPower = some o.power

theorem ChannelPlan.places_of_order {p : ChannelPlan} {decision : Decision} {o : Order}
    (h : p.order decision = .ok o) : p.Places decision o := by
  simp only [order] at h
  cases hr : Mac.LinkRequest.make decision.target.dataRate decision.target.txPower p.defaultMask 0
      decision.target.transmissions with
  | error err =>
    rw [hr] at h
    cases h
  | ok request =>
    rw [hr] at h
    obtain ⟨hrequest, hrange⟩ := Mac.LinkRequest.make_eq_ok_iff.1 hr
    simp only [bind, Except.bind] at h
    split at h
    · cases h
    · cases h
    · next rate power hrate hpower =>
      cases h
      exact ⟨rfl, hrequest, hrange, ⟨rate, hrate, rfl⟩, hpower⟩

namespace Engine

open AdaptiveRate.History

variable (e : Engine) (medium : Medium) (m : Downlink) (d : Device)

def Few (frames : List Frame) : Prop := frames = [] ∨ frames.length < e.config.minHistory.toNat

structure Reached (frames : List Frame) (adr : AdrState) (dataRate band : String) (b : Band)
    (decision : Decision) : Prop where
  named : Band.ofName band = .ok b
  supported : b.plan.linkAdrSupported = true
  listed : b.plan.settings adr dataRate = .ok decision.current
  decided : decide frames b.plan decision.current (adr.margin.getD e.config.defaultMargin)
    e.config = .ok decision

inductive Judged (frames : List Frame) (adr : AdrState) (dataRate band : String) :
    Except Stop Verdict → Prop
  | unknownBand {err : Error} :
      Band.ofName band = .error err → Judged frames adr dataRate band (.error (.error err))
  | unsupported {b : Band} :
      Band.ofName band = .ok b → b.plan.linkAdrSupported = false →
      Judged frames adr dataRate band (.ok (.unsupported b))
  | unlisted {b : Band} {err : Error} :
      Band.ofName band = .ok b → b.plan.linkAdrSupported = true →
      b.plan.settings adr dataRate = .error err →
      Judged frames adr dataRate band (.error (.error err))
  | undecided {b : Band} {current : Settings} {stop : Stop} :
      Band.ofName band = .ok b → b.plan.linkAdrSupported = true →
      b.plan.settings adr dataRate = .ok current →
      decide frames b.plan current (adr.margin.getD e.config.defaultMargin) e.config =
        .error stop →
      Judged frames adr dataRate band (.error stop)
  | settled {b : Band} {decision : Decision} :
      e.Reached frames adr dataRate band b decision → decision.isChange = false →
      Judged frames adr dataRate band (.ok (.settled decision))
  | unordered {b : Band} {decision : Decision} {err : Error} :
      e.Reached frames adr dataRate band b decision → decision.isChange = true →
      b.plan.order decision = .error err → Judged frames adr dataRate band (.error (.error err))
  | ordered {b : Band} {decision : Decision} {o : Order} :
      e.Reached frames adr dataRate band b decision → decision.isChange = true →
      b.plan.order decision = .ok o → Judged frames adr dataRate band (.ok (.order o))

theorem judged (frames : List Frame) (adr : AdrState) (dataRate band : String) :
    e.Judged frames adr dataRate band (e.judge frames adr dataRate band) := by
  unfold judge
  cases hb : Band.ofName band with
  | error err => exact .unknownBand hb
  | ok b =>
    cases hl : b.plan.linkAdrSupported with
    | false => simpa [hl] using Judged.unsupported hb hl
    | true =>
      cases hs : b.plan.settings adr dataRate with
      | error err => simpa [hl, hs] using Judged.unlisted hb hl hs
      | ok current =>
        cases hd : decide frames b.plan current (adr.margin.getD e.config.defaultMargin)
            e.config with
        | error stop => simpa [hl, hs, hd] using Judged.undecided hb hl hs hd
        | ok decision =>
          obtain ⟨rate, hdecides⟩ := decides_of_decide hd
          obtain rfl := hdecides.starts
          have hreached : e.Reached frames adr dataRate band b decision := ⟨hb, hl, hs, hd⟩
          cases hc : decision.isChange with
          | false => simpa [hl, hs, hd, hc] using Judged.settled hreached hc
          | true =>
            cases ho : b.plan.order decision with
            | error err => simpa [hl, hs, hd, hc, ho] using Judged.unordered hreached hc ho
            | ok o => simpa [hl, hs, hd, hc, ho] using Judged.ordered hreached hc ho

inductive Assessed : Except Stop Verdict → Prop
  | nothingOwed : d.adr.requestOwed = false → Assessed (.ok .nothingOwed)
  | malformed :
      d.adr.requestOwed = true → m.mac = none →
      Assessed (.error (.error (.malformedDownlink "missing MAC payload")))
  | unread {mac : Downlink.Mac} {err : StoreError} :
      d.adr.requestOwed = true → m.mac = some mac → e.frames medium d.key = .error err →
      Assessed (.error (.error (.store err)))
  | tooFewFrames {mac : Downlink.Mac} {frames : List Frame} :
      d.adr.requestOwed = true → m.mac = some mac → e.frames medium d.key = .ok frames →
      e.Few frames → Assessed (.ok (.tooFewFrames frames.length))
  | linkUnknown {mac : Downlink.Mac} {frames : List Frame} :
      d.adr.requestOwed = true → m.mac = some mac → e.frames medium d.key = .ok frames →
      ¬ e.Few frames → d.adr.dataRate.getD "" = "" ∨ d.adr.band.getD "" = "" →
      Assessed (.ok .linkUnknown)
  | judged {mac : Downlink.Mac} {frames : List Frame} {dataRate band : String} :
      d.adr.requestOwed = true → m.mac = some mac → e.frames medium d.key = .ok frames →
      ¬ e.Few frames → d.adr.dataRate = some dataRate → dataRate ≠ "" →
      d.adr.band = some band → band ≠ "" → Assessed (e.judge frames d.adr dataRate band)

theorem assessed : e.Assessed medium m d (e.assess medium m d) := by
  unfold assess
  cases ho : d.adr.requestOwed with
  | false => exact .nothingOwed ho
  | true =>
    cases hm : m.mac with
    | none => exact .malformed ho hm
    | some mac =>
      cases hf : e.frames medium d.key with
      | error err => exact .unread ho hm hf
      | ok frames =>
        by_cases hfew : e.Few frames
        · simpa [show frames = [] ∨ frames.length < e.config.minHistory.toNat from hfew] using
            Assessed.tooFewFrames ho hm hf hfew
        · have hmany : ¬ (frames = [] ∨ frames.length < e.config.minHistory.toNat) := hfew
          cases hr : d.adr.dataRate with
          | none => simpa [hmany] using Assessed.linkUnknown ho hm hf hfew (by simp [hr])
          | some dataRate =>
            cases hb : d.adr.band with
            | none => simpa [hmany] using Assessed.linkUnknown ho hm hf hfew (by simp [hb])
            | some band =>
              by_cases hempty : dataRate = "" ∨ band = ""
              · simpa [hmany, hempty] using
                  Assessed.linkUnknown ho hm hf hfew (by simpa [hr, hb] using hempty)
              · obtain ⟨hrate, hband⟩ := not_or.1 hempty
                simpa [hmany, hempty] using Assessed.judged ho hm hf hfew hr hrate hb hband

structure Due (frames : List Frame) (dataRate band : String) (b : Band) (o : Order) : Prop where
  owed : d.adr.requestOwed = true
  mac : ∃ mac, m.mac = some mac
  read : e.frames medium d.key = .ok frames
  many : ¬ e.Few frames
  dataRate_eq : d.adr.dataRate = some dataRate
  band_eq : d.adr.band = some band
  reached : e.Reached frames d.adr dataRate band b o.decision
  changed : o.decision.isChange = true
  order : b.plan.order o.decision = .ok o

theorem due_of_assess {o : Order} (h : e.assess medium m d = .ok (.order o)) :
    ∃ frames dataRate band b, e.Due medium m d frames dataRate band b o := by
  have ha := e.assessed medium m d
  generalize hv : e.assess medium m d = v at ha
  rw [h] at hv
  cases ha with
  | @judged mac frames dataRate band howed hm hread hmany hrate _ hband _ =>
    have hj := e.judged frames d.adr dataRate band
    rw [← hv] at hj
    cases hj with
    | @ordered b decision _ hreached hchanged horder =>
      obtain rfl := (ChannelPlan.places_of_order horder).decision_eq
      exact ⟨frames, dataRate, band, b, howed, ⟨mac, hm⟩, hread, hmany, hrate, hband, hreached,
        hchanged, horder⟩
  | _ => cases hv

theorem requestOwed_of_assess {v : Verdict} (h : e.assess medium m d = .ok v)
    (hv : v ≠ .nothingOwed) : d.adr.requestOwed = true := by
  cases ho : d.adr.requestOwed with
  | true => rfl
  | false =>
    simp only [assess, ho, Bool.not_false, if_true, Except.ok.injEq] at h
    exact absurd h.symm hv

def heardWell : Engine :=
  ⟨{ minHistory := 1 }, ((Store.empty 4).push ⟨"app", "dev"⟩ ⟨7, .ofNat 10, 1⟩).2, none⟩

def slowDevice : Device where
  appId := "app"
  devId := "dev"
  adr := { dataRate := some "SF8BW125", band := some "EU_863_870", requestOwed := true }

end Engine

end AdaptiveRate
