import AdaptiveRate.CommandLine.Run
import AdaptiveRate.Proofs.Engine.Emission
import AdaptiveRate.Proofs.Engine.Faults
import AdaptiveRate.Proofs.Simulation

namespace AdaptiveRate

open AdaptiveRate.History

namespace Simulation

def window (s : Simulation) (config : Config) : List Frame :=
  (s.counters.map s.frame).rtake config.historyCapacity.toNat

def Calls (s : Simulation) (config : Config) (b : Band) (decision : Decision) : Prop :=
  config.minHistory.toNat ≤ s.frames.toNat ∧ b.plan.linkAdrSupported = true ∧
    decision.isChange = true

instance (s : Simulation) (config : Config) (b : Band) (decision : Decision) :
    Decidable (s.Calls config b decision) :=
  inferInstanceAs (Decidable (_ ∧ _))

def settings (s : Simulation) (b : Band) (rate : DataRate) : Settings :=
  ⟨rate.index, b.plan.defaultTxPower, max s.transmissions 1⟩

structure Decides (s : Simulation) (config : Config) (b : Band) (rate : DataRate)
    (decision : Decision) (o : Order) : Prop where
  valid : config.Valid
  named : Band.ofName s.band = .ok b
  mem : rate ∈ b.plan.dataRates
  name_eq : rate.name = s.dataRate
  decided : decide (s.window config) b.plan (s.settings b rate) config.defaultMargin config =
    .ok decision
  ordered : b.plan.order decision = .ok o

variable {s : Simulation} {config : Config} {b : Band} {rate : DataRate} {decision : Decision}
  {o : Order}

theorem settings_deviceAfter (hmem : rate ∈ b.plan.dataRates) (hname : rate.name = s.dataRate)
    (n : Nat) :
    b.plan.settings (s.deviceAfter (n + 1)).adr s.dataRate = .ok (s.settings b rate) := by
  rw [← hname, ChannelPlan.settings, ChannelPlan.dataRateIndex,
    (ChannelPlan.lawful b).dataRate_name hmem]
  rfl

theorem exists_decides (hvalid : config.Valid) (hband : Band.ofName s.band = .ok b)
    (hmem : rate ∈ b.plan.dataRates) (hname : rate.name = s.dataRate) :
    ∃ decision o, s.Decides config b rate decision o := by
  have hlisted : s.dataRate ∈ b.plan.dataRates.map (·.name) := hname ▸ List.mem_map_of_mem hmem
  have hpower : ∀ dbm, (s.deviceAfter 1).adr.txPower = some dbm → dbm ∈ b.plan.txPowers :=
    fun _ h ↦ nomatch h
  obtain ⟨current, decision, o, hcurrent, hdecide, horder⟩ :=
    Engine.exists_decision hvalid hlisted hpower (s.window config) config.defaultMargin
  rw [settings_deviceAfter hmem hname] at hcurrent
  cases hcurrent
  exact ⟨decision, o, hvalid, hband, hmem, hname, hdecide, horder⟩

namespace Decides

theorem judge (h : s.Decides config b rate decision o) (n : Nat) :
    (Engine.inMemory config).judge (s.window config) (s.deviceAfter (n + 1)).adr s.dataRate s.band =
      .ok (if b.plan.linkAdrSupported then Engine.verdict decision o else .unsupported b) := by
  unfold Engine.judge
  rw [h.named]
  cases hl : b.plan.linkAdrSupported with
  | false => simp [hl]
  | true =>
    have hdecide : decide (s.window config) b.plan (s.settings b rate)
        ((s.deviceAfter (n + 1)).adr.margin.getD (Engine.inMemory config).config.defaultMargin)
        (Engine.inMemory config).config = .ok decision := h.decided
    simp only [hl, settings_deviceAfter h.mem h.name_eq, hdecide, h.ordered, Engine.verdict]
    cases decision.isChange <;> rfl

section Ledger

variable {l : Ledger} (hlen : s.counters.length = s.frames.toNat)
  (hpast : l.past s.device.key = s.counters.map s.frame)

include hpast in
theorem latest_eq (n : Nat) : l.latest config (s.deviceAfter n).key = s.window config := by
  rw [Ledger.latest, key_deviceAfter, hpast, window]

include hlen in
theorem length_window (h : s.Decides config b rate decision o) :
    (s.window config).length < config.minHistory.toNat ↔
      s.frames.toNat < config.minHistory.toNat := by
  have hle := h.valid.toNat_minHistory_le
  rw [window, List.length_rtake, List.length_map, hlen]
  omega

include hlen hpast

theorem assess_of_few (h : s.Decides config b rate decision o)
    (hfew : s.frames.toNat < config.minHistory.toNat) :
    ∃ v, l.assess config {} (s.deviceAfter s.frames.toNat) = .ok v ∧ ∀ o, v ≠ .order o := by
  unfold Ledger.assess
  split
  · exact ⟨.nothingOwed, rfl, nofun⟩
  · rw [latest_eq hpast, if_neg (by simp), if_pos ((length_window hlen h).2 hfew)]
    exact ⟨_, rfl, nofun⟩

theorem assess_of_many (h : s.Decides config b rate decision o)
    (hmany : config.minHistory.toNat ≤ s.frames.toNat) :
    l.assess config {} (s.deviceAfter s.frames.toNat) =
      .ok (if b.plan.linkAdrSupported then Engine.verdict decision o else .unsupported b) := by
  have hpos := h.valid.minHistory_pos
  obtain ⟨n, hn⟩ := Nat.exists_eq_succ_of_ne_zero (by omega : s.frames.toNat ≠ 0)
  have howed : (s.deviceAfter s.frames.toNat).adr.requestOwed = true := by
    rw [hn]
    simp [deviceAfter, hn]
  have hrate : s.dataRate ≠ "" := h.name_eq ▸ ChannelPlan.name_ne_blank b rate h.mem
  have hband : s.band ≠ "" := Band.ne_blank_of_ofName h.named
  unfold Ledger.assess
  rw [howed, latest_eq hpast, if_neg (by simp), if_neg (by simp),
    if_neg (mt (length_window hlen h).1 (Nat.not_lt.2 hmany)), hn]
  simp only [deviceAfter, hrate, hband]
  exact h.judge n

theorem downlink_of_calls (h : s.Decides config b rate decision o)
    (hcalls : s.Calls config b decision) :
    l.downlink config {} (s.deviceAfter s.frames.toNat) =
      ⟨.ok (), .downlink ⟨some { options := [o.request.toCommand] }⟩,
        (s.deviceAfter s.frames.toNat).follow o⟩ := by
  obtain ⟨hmany, hsupported, hchange⟩ := hcalls
  have hassess := assess_of_many hlen hpast h hmany
  rw [if_pos hsupported, Engine.verdict, if_pos hchange] at hassess
  rw [Ledger.downlink, hassess]
  rfl

theorem downlink_of_not_calls (h : s.Decides config b rate decision o)
    (hcalls : ¬ s.Calls config b decision) :
    ∃ d, l.downlink config {} (s.deviceAfter s.frames.toNat) = ⟨.ok (), .downlink {}, d⟩ := by
  obtain ⟨v, hassess, hv⟩ : ∃ v, l.assess config {} (s.deviceAfter s.frames.toNat) = .ok v ∧
      ∀ o, v ≠ .order o := by
    -- Too few frames leave the ledger no choice; otherwise it is the band or the decision.
    by_cases hfew : s.frames.toNat < config.minHistory.toNat
    · exact assess_of_few hlen hpast h hfew
    · have hmany := Nat.not_lt.1 hfew
      refine ⟨_, assess_of_many hlen hpast h hmany, ?_⟩
      intro o'
      split
      · next hsupported =>
        rw [Engine.verdict, if_neg fun hchange ↦ hcalls ⟨hmany, hsupported, hchange⟩]
        exact nofun
      · exact nofun
  rw [Ledger.downlink, hassess]
  cases v with
  | order o => exact absurd rfl (hv o)
  | _ => exact ⟨_, rfl⟩

end Ledger

end Decides

theorem conclude_of_answer {t : Trial} {m : Downlink} {d : Device}
    (h : (t.engine.downlink {} {} t.device).answer .downlink = ⟨.ok (), .downlink m, d⟩) :
    ∃ log, t.conclude = (log, .ok (m.options.head?, d)) := by
  unfold Trial.conclude
  generalize t.engine.downlink {} {} t.device = reply at h
  obtain ⟨result, message, device, store, log⟩ := reply
  cases h
  exact ⟨_, rfl⟩

theorem Decides.conclude (h : s.Decides config b rate decision o) {t : Trial}
    (hfinished : s.Finished config t) :
    (s.Calls config b decision →
        ∃ log d, t.conclude = (log, .ok (some o.request.toCommand, Device.follow d o))) ∧
      (¬ s.Calls config b decision → ∃ log d, t.conclude = (log, .ok (none, d))) := by
  obtain ⟨hlen, -, hdevice, l, htracks, hpast⟩ := hfinished
  obtain ⟨hanswer, -⟩ := htracks.downlink {} t.device
  rw [hdevice] at hanswer
  constructor
  · intro hcalls
    rw [downlink_of_calls hlen hpast h hcalls, ← hdevice] at hanswer
    obtain ⟨log, hconclude⟩ := conclude_of_answer hanswer
    exact ⟨log, _, hconclude⟩
  · intro hcalls
    obtain ⟨d, hserve⟩ := downlink_of_not_calls hlen hpast h hcalls
    rw [hserve, ← hdevice] at hanswer
    obtain ⟨log, hconclude⟩ := conclude_of_answer hanswer
    exact ⟨log, d, hconclude⟩

def announcement (p : ChannelPlan) (target : Settings) (rate : DataRate) (dbm : Int8) : String :=
  let request : Mac.LinkRequest :=
    ⟨target.dataRate, target.txPower, p.defaultMask, 0, target.transmissions⟩
  "LinkADRReq " ++ Hex.upper (0x03 :: request.toBytes) ++ "\n  DR" ++ toString target.dataRate ++
    " (" ++ rate.name ++ "), TXPower " ++ toString target.txPower ++ " (" ++ toString dbm ++
    " dBm), NbTrans " ++ toString target.transmissions ++ ", ChMask " ++ p.defaultMask.text ++ "\n"

def report (s : Simulation) (config : Config) (b : Band) (decision : Decision) (rate : DataRate)
    (dbm : Int8) : String :=
  if s.Calls config b decision then announcement b.plan decision.target rate dbm
  else "No LinkADRReq needed\n"

end Simulation

namespace CommandLine

variable {s : Simulation} {config : Config} {b : Band} {rate : DataRate} {decision : Decision}
  {o : Order}

theorem emissionText_eq {p : ChannelPlan} (h : p.Places decision o)
    (hrate : o.dataRate = rate.name) (d : Device) :
    emissionText o.request.toCommand o.request (d.follow o) =
      Simulation.announcement p decision.target rate o.power := by
  have hbytes : o.request.toCommand.toBytes = 0x03 :: o.request.toBytes := rfl
  have hname : (d.follow o).adr.dataRate.getD "?" = rate.name := hrate
  have hpower : (d.follow o).adr.txPower.getD 0 = o.power := rfl
  unfold emissionText Simulation.announcement
  dsimp only
  rewrite [hbytes, hname, hpower, h.request_eq]
  dsimp only

theorem exists_simulateText (h : s.Decides config b rate decision o) {rate' : DataRate}
    (hrate : o.dataRate = rate'.name) {t : Simulation.Trial}
    (hloop : s.loop (s.start config) = (.ok (), t)) (hfinished : s.Finished config t) :
    ∃ log, simulateText s config = (log, .ok (s.report config b decision rate' o.power)) := by
  have hplaces := ChannelPlan.places_of_order h.ordered
  have hdecoded : Mac.LinkRequest.ofCommand o.request.toCommand = .ok o.request := by
    rw [Mac.LinkRequest.ofCommand_toCommand, hplaces.inRange.truncate_eq]
  have hrun : s.run config = t.conclude := by
    simp only [Simulation.run, h.named, ← h.name_eq, (ChannelPlan.lawful b).dataRate_name h.mem,
      hloop]
  obtain ⟨hdue, hidle⟩ := h.conclude hfinished
  unfold simulateText Simulation.report
  by_cases hcalls : s.Calls config b decision
  · obtain ⟨log, d, hconclude⟩ := hdue hcalls
    rw [hrun, hconclude, if_pos hcalls]
    simp only [hdecoded, emissionText_eq hplaces hrate]
    exact ⟨_, rfl⟩
  · obtain ⟨log, d, hconclude⟩ := hidle hcalls
    rw [hrun, hconclude, if_neg hcalls]
    exact ⟨log, rfl⟩

/-- The loop ends, having sent one uplink for each of the least counters that are not lost, and the
program prints the request for the decision on the latest of them if one is due. -/
theorem simulate_reports {s : Simulation} {config : Config} {b : Band} {rate : DataRate}
    (hvalid : config.validate = .ok ()) (hroom : config.historyCapacity.toNat * 12 ≤ 2 ^ 63 - 1)
    (hband : Band.ofName s.band = .ok b) (hmem : rate ∈ b.plan.dataRates)
    (hname : rate.name = s.dataRate)
    (hcount : s.frames.toNat + s.lost.toFinset.card < 2 ^ 32) :
    ∃ t decision rate' dbm, s.loop (s.start config) = (.ok (), t) ∧
      s.counters.length = s.frames.toNat ∧
      t.sent.toList = s.counters.mapIdx
        (fun i counter ↦ s.uplink counter (i + 1 == s.frames.toNat)) ∧
      decide ((s.counters.map fun counter ↦ ⟨counter, s.snr, 1⟩).rtake
          config.historyCapacity.toNat) b.plan
        ⟨rate.index, b.plan.defaultTxPower, max s.transmissions 1⟩ config.defaultMargin config =
          .ok decision ∧
      b.plan.dataRateByIndex decision.target.dataRate = some rate' ∧
      b.plan.txPowerDbm decision.target.txPower = some dbm ∧
      ∀ files path verbose, loadConfig files path = .ok config → ∃ log,
        Invocation.run files ⟨path, verbose, .simulate s⟩ =
          .success (s.report config b decision rate' dbm) log := by
  have hv := Config.validate_eq_ok_iff.1 hvalid
  have haffordable : History.Store.Affordable config.historyCapacity.toNat :=
    History.Store.affordable_iff.2 hroom
  obtain ⟨t, hloop, hfinished⟩ := (Simulation.progress_start hv haffordable).loop hcount
  obtain ⟨decision, o, hdecides⟩ := Simulation.exists_decides hv hband hmem hname
  have hplaces := ChannelPlan.places_of_order hdecides.ordered
  obtain ⟨rate', hrate', horder⟩ := hplaces.dataRate
  obtain ⟨log, htext⟩ := exists_simulateText hdecides horder hloop hfinished
  refine ⟨t, decision, rate', o.power, hloop, hfinished.length_counters, hfinished.sent_eq,
    hdecides.decided, hrate', hplaces.power, fun files path verbose hload ↦ ⟨log, ?_⟩⟩
  simp only [Invocation.run, hload, Command.text, htext]

/-- Twenty frames, with one lost among them that is named twice. -/
def lossy : Simulation := { lost := [3, 3] }

/-- The counters are found below the last one that is sent; all those that 32 bits have are too many
to go through. -/
theorem counters_lossy : lossy.counters = Simulation.arriving [3, 3] 21 :=
  Simulation.counters_eq (by decide) (by decide +kernel)

theorem simulate_reports_lossy : ({} : Config).validate = .ok () ∧
    ({} : Config).historyCapacity.toNat * 12 ≤ 2 ^ 63 - 1 ∧
    lossy.frames.toNat + lossy.lost.toFinset.card < 2 ^ 32 ∧
    ∃ log, Invocation.run (fun _ ↦ .error .missing) ⟨none, false, .simulate lossy⟩ =
      .success ("LinkADRReq 0331FF0001\n  DR3 (SF9BW125), TXPower 1 (14 dBm), NbTrans 1, " ++
        "ChMask 0000000011111111\n") log := by
  have hvalid : ({} : Config).validate = .ok () := by decide +kernel
  have hroom : ({} : Config).historyCapacity.toNat * 12 ≤ 2 ^ 63 - 1 := by decide
  have hcount : lossy.frames.toNat + lossy.lost.toFinset.card < 2 ^ 32 := by decide +kernel
  have hband : Band.ofName lossy.band = .ok .eu863 := by decide +kernel
  have hmem : lora 0 "SF12BW125" 12 125 ∈ Band.eu863.plan.dataRates := by decide +kernel
  obtain ⟨t, decision, rate', dbm, -, -, -, hdecide, hrate, hdbm, hrun⟩ :=
    simulate_reports hvalid hroom hband hmem rfl hcount
  obtain ⟨log, hlog⟩ := hrun (fun _ ↦ .error .missing) none false rfl
  rw [counters_lossy] at hdecide
  have htarget : (Except.ok decision : Except Stop Decision).map
      (fun d ↦ (d.target, d.isChange)) = .ok (⟨3, 1, 1⟩, true) := by
    rw [← hdecide]
    decide +kernel
  obtain ⟨htarget, hchange⟩ := Prod.mk.inj (Except.ok.inj htarget)
  have hcalls : lossy.Calls {} .eu863 decision := ⟨by decide, rfl, hchange⟩
  have hname : rate'.name = "SF9BW125" := by
    rw [htarget] at hrate
    cases hrate
    rfl
  have hpower : dbm = 14 := by
    rw [htarget] at hdbm
    cases hdbm
    rfl
  have htext : lossy.report {} .eu863 decision rate' dbm =
      "LinkADRReq 0331FF0001\n  DR3 (SF9BW125), TXPower 1 (14 dBm), NbTrans 1, " ++
        "ChMask 0000000011111111\n" := by
    rw [Simulation.report, if_pos hcalls, htarget, hpower]
    unfold Simulation.announcement
    rw [hname]
    decide +kernel
  exact ⟨hvalid, hroom, hcount, log, htext ▸ hlog⟩

end CommandLine

end AdaptiveRate
