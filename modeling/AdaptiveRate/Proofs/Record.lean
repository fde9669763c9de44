import AdaptiveRate.Proofs.Band
import AdaptiveRate.Proofs.Decision
import AdaptiveRate.Proofs.Engine.Downlink
import AdaptiveRate.Proofs.Engine.Medium
import AdaptiveRate.Proofs.Engine.Uplink

namespace AdaptiveRate

/-- The band goes by its identifier, the power is one of that band, and the number of transmissions
is at most `max`. -/
structure AdrState.Sound (max : UInt8) (adr : AdrState) : Prop where
  band : ∀ name, adr.band = some name → ∃ b : Band, name = b.name
  txPower : ∀ dbm, adr.txPower = some dbm →
    ∃ b : Band, adr.band = some b.name ∧ dbm ∈ b.plan.txPowers
  transmissions_pos : 1 ≤ adr.transmissions
  transmissions_le : adr.transmissions ≤ max

namespace AdrState.Sound

variable {max : UInt8} {d : Device}

theorem fresh (hmax : 1 ≤ max) : Sound max {} where
  band _ h := by cases h
  txPower _ h := by cases h
  transmissions_pos := UInt8.le_refl 1
  transmissions_le := hmax

theorem heard (h : d.adr.Sound max) (mac : Uplink.Mac) (metadata : Uplink.Metadata) :
    (d.heard mac metadata).adr.Sound max where
  band name hname := by
    simp only [Device.heard, Option.orElse_eq_orElse, Option.orElse_eq_or, Option.or_eq_some_iff,
      Option.filter_eq_some_iff] at hname
    rcases hname with hkept | ⟨-, -, hok⟩
    · exact h.band name hkept
    · cases hb : Band.ofName name with
      | error err => simp [hb, Except.isOk, Except.toBool] at hok
      | ok b => exact ⟨b, (Band.name_of_ofName hb).symm⟩
  txPower dbm hdbm := by
    obtain ⟨b, hband, hmem⟩ := h.txPower dbm hdbm
    exact ⟨b, by simp [Device.heard, hband], hmem⟩
  transmissions_pos := by
    simp only [Device.heard, UInt8.max_one, UInt8.not_lt.2 h.transmissions_pos, if_false]
    exact h.transmissions_pos
  transmissions_le := by
    simp only [Device.heard, UInt8.max_one, UInt8.not_lt.2 h.transmissions_pos, if_false]
    exact h.transmissions_le

theorem settle (h : d.adr.Sound max) : d.settle.adr.Sound max where
  band := h.band
  txPower := h.txPower
  transmissions_pos := h.transmissions_pos
  transmissions_le := h.transmissions_le

theorem follow {e : Engine} {medium : History.Medium} {m : Downlink} {frames : List Frame}
    {dataRate band : String} {b : Band} {o : Order} (h : d.adr.Sound max)
    (hdue : e.Due medium m d frames dataRate band b o) :
    (d.follow o).adr.Sound e.config.maxTransmissions where
  band := h.band
  txPower dbm hdbm := by
    cases hdbm
    refine ⟨b, ?_, List.mem_of_getElem? (ChannelPlan.places_of_order hdue.order).power⟩
    rw [Band.name_of_ofName hdue.reached.named]
    exact hdue.band_eq
  transmissions_pos := (transmissions_of_decide hdue.reached.decided).1
  transmissions_le := (transmissions_of_decide hdue.reached.decided).2

end AdrState.Sound

def Error.blamesLink : Error → Bool
  | .unknownBand _ | .invalidTxPower _ _ => true
  | _ => false

namespace ChannelPlan

variable {p : ChannelPlan} {err : Error}

theorem blameless_of_dataRateIndex {name : String} (h : p.dataRateIndex name = .error err) :
    err.blamesLink = false := by
  simp only [dataRateIndex, dataRate] at h
  split at h
  · cases h
  · cases h
    rfl

theorem exists_txPowerIndex {dbm : Int8} (h : dbm ∈ p.txPowers) :
    ∃ i, p.txPowerIndex dbm = .ok i := by
  unfold txPowerIndex
  split
  · exact ⟨_, rfl⟩
  · next hnone => simpa using List.findIdx?_eq_none_iff.1 hnone dbm h

theorem blameless_of_settings {adr : AdrState} {name : String}
    (hpower : ∀ dbm, adr.txPower = some dbm → dbm ∈ p.txPowers)
    (h : p.settings adr name = .error err) : err.blamesLink = false := by
  simp only [settings, bind, Except.bind] at h
  cases hrate : p.dataRateIndex name with
  | error err' =>
    rw [hrate] at h
    cases h
    exact blameless_of_dataRateIndex hrate
  | ok rate =>
    rw [hrate] at h
    cases hdbm : adr.txPower with
    | none => simp [hdbm, pure, Except.pure] at h
    | some dbm =>
      obtain ⟨i, hi⟩ := exists_txPowerIndex (hpower dbm hdbm)
      simp [hdbm, hi, pure, Except.pure] at h

theorem blameless_of_order {decision : Decision} (h : p.order decision = .error err) :
    err.blamesLink = false := by
  simp only [order, bind, Except.bind] at h
  split at h
  · next hmake =>
    cases h
    obtain ⟨field, value, m, rfl⟩ := Mac.LinkRequest.error_of_make hmake
    rfl
  · split at h <;> cases h <;> rfl

end ChannelPlan

namespace Engine

variable {e : Engine} {medium : History.Medium} {m : Downlink} {d : Device} {max : UInt8}
  {err : Error}

theorem blameless_of_judge {frames : List Frame} {dataRate band : String}
    (hsound : d.adr.Sound max) (hband : d.adr.band = some band)
    (h : e.judge frames d.adr dataRate band = .error (.error err)) : err.blamesLink = false := by
  obtain ⟨b, rfl⟩ := hsound.band band hband
  -- The band that lists the power is the one that the record names.
  have hpower : ∀ dbm, d.adr.txPower = some dbm → dbm ∈ b.plan.txPowers := by
    intro dbm hdbm
    obtain ⟨b', hband', hmem⟩ := hsound.txPower dbm hdbm
    obtain rfl := Band.name_injective (Option.some_inj.1 (hband.symm.trans hband'))
    exact hmem
  have hj := e.judged frames d.adr dataRate b.name
  rw [h] at hj
  cases hj with
  | unknownBand hnamed =>
    rw [Band.ofName_name] at hnamed
    cases hnamed
  | unlisted hnamed _ hlisted =>
    rw [Band.ofName_name] at hnamed
    cases hnamed
    exact ChannelPlan.blameless_of_settings hpower hlisted
  | undecided _ _ _ hdecide =>
    obtain ⟨name, rfl⟩ := error_of_decide hdecide
    rfl
  | unordered _ _ horder => exact ChannelPlan.blameless_of_order horder

theorem blameless_of_assess (hsound : d.adr.Sound max)
    (h : e.assess medium m d = .error (.error err)) : err.blamesLink = false := by
  have ha := e.assessed medium m d
  generalize hv : e.assess medium m d = v at ha
  rw [h] at hv
  cases ha with
  | judged _ _ _ _ _ _ hband => exact blameless_of_judge hsound hband hv.symm
  | malformed | unread =>
    cases hv
    rfl
  | _ => cases hv

/-- What a sound record says of the link is never why a downlink is refused. -/
theorem blameless_of_downlink (hsound : d.adr.Sound max)
    (h : (e.downlink medium m d).result = .error (.error err)) : err.blamesLink = false := by
  unfold downlink at h
  cases ha : e.assess medium m d with
  | error stop =>
    rw [ha] at h
    cases h
    exact blameless_of_assess hsound ha
  | ok v =>
    rw [ha] at h
    cases v with
    | nothingOwed | tooFewFrames | linkUnknown | unsupported | settled => cases h
    | order o =>
      dsimp only at h
      split at h
      · next stop store hclear =>
        obtain ⟨-, cause, rfl⟩ := clear_error hclear
        cases h
        rfl
      · cases h

end Engine

end AdaptiveRate
