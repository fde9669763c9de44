import AdaptiveRate.Proofs.Band
import AdaptiveRate.Proofs.Engine.Downlink
import AdaptiveRate.Proofs.Engine.Medium
import AdaptiveRate.Proofs.Mac.ChannelMask

namespace AdaptiveRate

open AdaptiveRate.History

def Mac.LinkRequest.settings (r : Mac.LinkRequest) : Settings :=
  ⟨r.dataRate, r.txPower, r.transmissions⟩

namespace ChannelPlan

variable {p : ChannelPlan}

/-- The record of a device names what a request asks for, and the request leaves the channels of
the plan switched on. -/
structure Agrees (p : ChannelPlan) (adr : AdrState) (r : Mac.LinkRequest) : Prop where
  dataRate : ∃ name, adr.dataRate = some name ∧ p.dataRateIndex name = .ok r.dataRate
  txPower : ∃ dbm, adr.txPower = some dbm ∧ p.txPowerIndex dbm = .ok r.txPower
  transmissions : adr.transmissions = r.transmissions
  maskControl : r.maskControl = 0
  mask : ∀ i, r.mask.isEnabled i = true ↔ ∃ c ∈ p.defaultChannels, c.toNat = i

theorem Lawful.isEnabled_defaultMask (hp : p.Lawful) (i : Nat) :
    p.defaultMask.isEnabled i = true ↔ ∃ c ∈ p.defaultChannels, c.toNat = i := by
  rw [defaultMask, ChannelMask.isEnabled_ofChannels]
  constructor
  · exact fun h ↦ h.2
  · rintro ⟨c, hc, rfl⟩
    exact ⟨hp.channels_lt c hc, c, hc, rfl⟩

theorem Places.agrees (hp : p.Lawful) {decision : Decision} {o : Order}
    (h : p.Places decision o) (d : Device) : p.Agrees (d.follow o).adr o.request := by
  obtain ⟨rate, hrate, hname⟩ := h.dataRate
  have hdecision := h.decision_eq
  have hrequest := h.request_eq
  constructor
  · refine ⟨rate.name, by simp [Device.follow, hname], ?_⟩
    rw [hp.dataRateIndex_name hrate, hrequest]
  · refine ⟨o.power, rfl, ?_⟩
    rw [hp.txPowerIndex_dbm h.power, hrequest]
  · simp [Device.follow, hdecision, hrequest]
  · rw [hrequest]
  · intro i
    rw [hrequest]
    exact hp.isEnabled_defaultMask i

theorem Agrees.settings_eq {adr adr' : AdrState} {r : Mac.LinkRequest} (h : p.Agrees adr r)
    (hrate : adr'.dataRate = adr.dataRate) (hpower : adr'.txPower = adr.txPower)
    (hn : adr'.transmissions = adr.transmissions) {name : String}
    (hname : adr'.dataRate = some name) : p.settings adr' name = .ok r.settings := by
  obtain ⟨rate, hr, hindex⟩ := h.dataRate
  obtain ⟨dbm, hd, hdbm⟩ := h.txPower
  obtain rfl : name = rate := Option.some_inj.1 (hname.symm.trans (hrate.trans hr))
  have htransmissions := hn.trans h.transmissions
  simp only [settings, hindex, hpower, hd, hdbm, htransmissions]
  rfl

end ChannelPlan

namespace Engine

variable {e : Engine} {medium : Medium} {m : Downlink} {d : Device} {c : Mac.Command}

theorem exists_due_of_emitted
    (h : (e.downlink medium m d).message.options = m.options ++ [c]) :
    ∃ frames dataRate band b o, e.Due medium m d frames dataRate band b o ∧
      c = o.request.toCommand ∧ (e.downlink medium m d).device = d.follow o := by
  have hkept : m.options ≠ m.options ++ [c] := by simp
  unfold downlink at h ⊢
  cases ha : e.assess medium m d with
  | error stop =>
    rw [ha] at h
    exact absurd h hkept
  | ok v =>
    rw [ha] at h
    cases v with
    | nothingOwed | tooFewFrames | linkUnknown | unsupported | settled => exact absurd h hkept
    | order o =>
      obtain ⟨frames, dataRate, band, b, hdue⟩ := e.due_of_assess medium m d ha
      obtain ⟨mac, hm⟩ := hdue.mac
      dsimp only at h ⊢
      split at h
      · exact absurd h hkept
      · next store hc =>
        refine ⟨frames, dataRate, band, b, o, hdue, ?_, rfl⟩
        simpa [Downlink.append, Downlink.options, hm, eq_comm] using h

/-- Whoever decodes the command finds the settings that the record names from then on, and they
are the target of the decision. -/
theorem request_agrees (h : (e.downlink medium m d).message.options = m.options ++ [c]) :
    ∃ band b request decision, d.adr.band = some band ∧ Band.ofName band = .ok b ∧
      (e.downlink medium m d).device.adr.band = some band ∧
      Mac.LinkRequest.ofCommand c = .ok request ∧
      b.plan.Agrees (e.downlink medium m d).device.adr request ∧
      request.settings = decision.target ∧
      (∃ frames dataRate, e.frames medium d.key = .ok frames ∧ d.adr.dataRate = some dataRate ∧
        e.Reached frames d.adr dataRate band b decision) ∧
      ∀ adr name, adr.dataRate = (e.downlink medium m d).device.adr.dataRate →
        adr.txPower = (e.downlink medium m d).device.adr.txPower →
        adr.transmissions = (e.downlink medium m d).device.adr.transmissions →
        adr.dataRate = some name → b.plan.settings adr name = .ok decision.target := by
  obtain ⟨frames, dataRate, band, b, o, hdue, rfl, hdevice⟩ := exists_due_of_emitted h
  have hplaces := ChannelPlan.places_of_order hdue.order
  have hagrees : b.plan.Agrees (d.follow o).adr o.request :=
    hplaces.agrees (ChannelPlan.lawful b) d
  have hdecoded : Mac.LinkRequest.ofCommand o.request.toCommand = .ok o.request := by
    rw [Mac.LinkRequest.ofCommand_toCommand, hplaces.inRange.truncate_eq]
  have htarget : o.request.settings = o.decision.target := by
    rw [hplaces.request_eq]
    rfl
  rw [hdevice]
  refine ⟨band, b, o.request, o.decision, hdue.band_eq, hdue.reached.named, hdue.band_eq,
    hdecoded, hagrees, htarget, ⟨frames, dataRate, hdue.read, hdue.dataRate_eq, hdue.reached⟩, ?_⟩
  intro adr name hrate hpower hn hname
  rw [← htarget]
  exact hagrees.settings_eq hrate hpower hn hname

theorem request_agrees_slow : ∃ request,
    Mac.LinkRequest.ofCommand ⟨3, [0x51, 0xFF, 0, 1]⟩ = .ok request ∧
      Band.eu863.plan.Agrees (heardWell.downlink {} {} slowDevice).device.adr request := by
  have h : (heardWell.downlink {} {} slowDevice).message.options =
      Downlink.options {} ++ [⟨3, [0x51, 0xFF, 0, 1]⟩] := by decide +kernel
  obtain ⟨band, b, request, -, hband, hname, -, hdecoded, hagrees, -⟩ := request_agrees h
  obtain rfl := Option.some_inj.1 hband
  obtain rfl : .eu863 = b := Except.ok.inj hname
  exact ⟨request, hdecoded, hagrees⟩

end Engine

end AdaptiveRate
