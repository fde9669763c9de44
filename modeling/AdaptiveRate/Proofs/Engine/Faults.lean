import AdaptiveRate.Proofs.Config
import AdaptiveRate.Proofs.Convergence
import AdaptiveRate.Proofs.Record

namespace AdaptiveRate

namespace ChannelPlan

structure Fitting (p : ChannelPlan) : Prop where
  indices_le : ∀ i ∈ p.dataRates.map (·.index), i ≤ Mac.LinkRequest.nibbleMax
  defaultTxPower_lt : p.defaultTxPower.toNat < p.txPowers.length

theorem fitting (b : Band) : b.plan.Fitting := by
  cases b <;> constructor <;> decide +kernel

variable {p : ChannelPlan}

theorem Lawful.exists_dataRateIndex (hp : p.Lawful) {name : String}
    (h : name ∈ p.dataRates.map (·.name)) :
    ∃ i ∈ p.dataRates.map (·.index), p.dataRateIndex name = .ok i := by
  obtain ⟨rate, hrate, rfl⟩ := List.mem_map.1 h
  refine ⟨rate.index, List.mem_map_of_mem hrate, ?_⟩
  rw [dataRateIndex, hp.dataRate_name hrate]
  rfl

theorem Lawful.txPowerIndex_lt (hp : p.Lawful) {dbm : Int8} {i : UInt8}
    (h : p.txPowerIndex dbm = .ok i) : i.toNat < p.txPowers.length := by
  have hlen := hp.powers_length
  unfold txPowerIndex at h
  split at h
  · next n hn =>
    cases h
    obtain ⟨hlt, -⟩ := List.findIdx?_eq_some_iff_getElem.1 hn
    rw [UInt8.toNat_ofNat', Nat.mod_eq_of_lt (by omega)]
    exact hlt
  · cases h

structure Covers (p : ChannelPlan) (s : Settings) : Prop where
  dataRate_mem : s.dataRate ∈ p.dataRates.map (·.index)
  txPower_lt : s.txPower.toNat < p.txPowers.length

theorem exists_settings (hp : p.Lawful) (hfit : p.Fitting) {adr : AdrState} {name : String}
    (hname : name ∈ p.dataRates.map (·.name))
    (hpower : ∀ dbm, adr.txPower = some dbm → dbm ∈ p.txPowers) :
    ∃ current, p.settings adr name = .ok current ∧ p.Covers current := by
  obtain ⟨rate, hmem, hrate⟩ := hp.exists_dataRateIndex hname
  cases hdbm : adr.txPower with
  | none =>
    refine ⟨⟨rate, p.defaultTxPower, adr.transmissions⟩, ?_, hmem, hfit.defaultTxPower_lt⟩
    simp only [settings, hrate, hdbm]
    rfl
  | some dbm =>
    obtain ⟨power, hindex⟩ := exists_txPowerIndex (hpower dbm hdbm)
    refine ⟨⟨rate, power, adr.transmissions⟩, ?_, hmem, hp.txPowerIndex_lt hindex⟩
    simp only [settings, hrate, hdbm, hindex]
    rfl

variable {decision : Decision}

theorem Covers.target (hp : p.Lawful) (h : p.Covers decision.current)
    (hallocates : Allocates p decision) : p.Covers decision.target where
  dataRate_mem := hallocates.listed hp.indices_ascend h.dataRate_mem
  txPower_lt := by
    have hweakest : p.minTxPowerIndex.toNat = p.txPowers.length - 1 :=
      toNat_minTxPowerIndex (hp.powers_length.trans (by decide))
    have hlt := h.txPower_lt
    rw [hallocates.txPower, toNat_lowerPower]
    omega

theorem Covers.exists_order (hp : p.Lawful) (hfit : p.Fitting) (h : p.Covers decision.target)
    (htransmissions : decision.target.transmissions ≤ Mac.LinkRequest.nibbleMax) :
    ∃ o, p.order decision = .ok o := by
  have hpower : decision.target.txPower ≤ Mac.LinkRequest.nibbleMax := by
    have hlt := h.txPower_lt
    have hlen := hp.powers_length
    have hmax : Mac.LinkRequest.nibbleMax.toNat = 15 := rfl
    rw [UInt8.le_iff_toNat_le]
    omega
  have hcontrol : (0 : UInt8) ≤ Mac.LinkRequest.maskControlMax := by decide
  have hmake : Mac.LinkRequest.make decision.target.dataRate decision.target.txPower p.defaultMask 0
      decision.target.transmissions = .ok _ :=
    Mac.LinkRequest.make_eq_ok_iff.2 ⟨rfl, hfit.indices_le _ h.dataRate_mem, hpower, hcontrol,
      htransmissions⟩
  cases hrate : p.dataRateByIndex decision.target.dataRate with
  | none => exact absurd h.dataRate_mem (dataRateByIndex_eq_none_iff.1 hrate)
  | some rate =>
    obtain ⟨dbm, hdbm⟩ : ∃ dbm, p.txPowerDbm decision.target.txPower = some dbm :=
      ⟨_, List.getElem?_eq_getElem h.txPower_lt⟩
    simp only [order, hmake, hrate, hdbm]
    exact ⟨_, rfl⟩

end ChannelPlan

/-- The record names a band in which a single request will do, and of its tables a data rate, and a
power if it names one. -/
structure AdrState.Listed (adr : AdrState) (dataRate band : String) (b : Band) : Prop where
  dataRate_eq : adr.dataRate = some dataRate
  band_eq : adr.band = some band
  named : Band.ofName band = .ok b
  supported : b.plan.linkAdrSupported = true
  dataRate_mem : dataRate ∈ b.plan.dataRates.map (·.name)
  txPower_mem : ∀ dbm, adr.txPower = some dbm → dbm ∈ b.plan.txPowers

namespace Engine

open AdaptiveRate.History

variable {e : Engine} {medium : Medium} {m : Downlink} {d : Device} {dataRate band : String}
  {b : Band}

def verdict (decision : Decision) (o : Order) : Verdict :=
  if decision.isChange then .order o else .settled decision

/-- Whatever the window, a decision is reached and the request for it can be made. -/
theorem exists_decision {config : Config} (hvalid : config.Valid) {adr : AdrState}
    (hname : dataRate ∈ b.plan.dataRates.map (·.name))
    (hpower : ∀ dbm, adr.txPower = some dbm → dbm ∈ b.plan.txPowers) (frames : List Frame)
    (margin : Number.Single) :
    ∃ current decision o, b.plan.settings adr dataRate = .ok current ∧
      decide frames b.plan current margin config = .ok decision ∧
      b.plan.order decision = .ok o := by
  have hlawful := ChannelPlan.lawful b
  have hfit := ChannelPlan.fitting b
  have hlt : config.maxTransmissions < 255 :=
    UInt8.lt_of_le_of_lt hvalid.transmissions_le (by decide)
  obtain ⟨current, hsettings, hcovers⟩ := ChannelPlan.exists_settings hlawful hfit hname hpower
  obtain ⟨decision, hd⟩ : ∃ decision, decide frames b.plan current margin config = .ok decision :=
    (exists_decide_iff hvalid.transmissions_pos hlt).2 hcovers.dataRate_mem
  obtain ⟨rfl, hallocates⟩ := allocates_of_decide hd
  obtain ⟨o, ho⟩ := (hcovers.target hlawful hallocates).exists_order hlawful hfit
    (UInt8.le_trans (transmissions_of_decide hd).2 hvalid.transmissions_le)
  exact ⟨decision.current, decision, o, hsettings, hd, ho⟩

theorem exists_judge (hvalid : e.config.Valid) {adr : AdrState} (h : adr.Listed dataRate band b)
    (frames : List Frame) :
    ∃ current decision o, b.plan.settings adr dataRate = .ok current ∧
      decide frames b.plan current (adr.margin.getD e.config.defaultMargin) e.config =
        .ok decision ∧
      b.plan.order decision = .ok o ∧
      e.judge frames adr dataRate band = .ok (verdict decision o) := by
  obtain ⟨current, decision, o, hsettings, hd, ho⟩ :=
    exists_decision hvalid h.dataRate_mem h.txPower_mem frames _
  refine ⟨current, decision, o, hsettings, hd, ho, ?_⟩
  unfold judge verdict
  rw [h.named]
  simp only [h.supported, hsettings, hd, ho]
  cases decision.isChange <;> rfl

/-- Once there is a verdict, only the store stands in the way of it. -/
theorem ok_or_store_of_assess {v : Verdict} (h : e.assess medium m d = .ok v) :
    (e.downlink medium m d).result = .ok () ∨
      ∃ err, (e.downlink medium m d).result = .error (.error (.store err)) := by
  unfold downlink
  rw [h]
  cases v with
  | nothingOwed | tooFewFrames | linkUnknown | unsupported | settled => exact .inl rfl
  | order o =>
    dsimp only
    split
    · next hclear =>
      obtain ⟨-, err, rfl⟩ := clear_error hclear
      exact .inr ⟨err, rfl⟩
    · exact .inl rfl

/-- A device covered by the tables is refused for the sake of the store alone: all that is computed
between reading the history and clearing it has a result. -/
theorem downlink_ok_or_store (hvalid : e.config.validate = .ok ()) (hmac : m.mac ≠ none)
    (h : d.adr.Listed dataRate band b) :
    ((e.downlink medium m d).result = .ok () ∨
      ∃ err, (e.downlink medium m d).result = .error (.error (.store err))) ∧
    ∀ frames, ∃ current decision o, b.plan.settings d.adr dataRate = .ok current ∧
      decide frames b.plan current (d.adr.margin.getD e.config.defaultMargin) e.config =
        .ok decision ∧
      b.plan.order decision = .ok o ∧
      e.judge frames d.adr dataRate band = .ok (verdict decision o) := by
  have hvalid := Config.validate_eq_ok_iff.1 hvalid
  refine ⟨?_, fun frames ↦ exists_judge hvalid h frames⟩
  have ha := e.assessed medium m d
  generalize hv : e.assess medium m d = v at ha
  cases ha with
  | nothingOwed | tooFewFrames | linkUnknown => exact ok_or_store_of_assess hv
  | malformed _ hm => exact absurd hm hmac
  | unread => exact .inr ⟨_, by rw [downlink, hv]; rfl⟩
  | @judged _ frames dataRate' band' _ _ _ _ hrate _ hband =>
    obtain rfl := Option.some_inj.1 (hrate.symm.trans h.dataRate_eq)
    obtain rfl := Option.some_inj.1 (hband.symm.trans h.band_eq)
    obtain ⟨current, decision, o, -, -, -, hj⟩ := exists_judge hvalid h frames
    exact ok_or_store_of_assess (hv.trans hj)

/-- The request for the slow device is ready, but the store does not answer when it is to be
cleared. -/
theorem downlink_ok_or_store_silent : slowDevice.adr.Listed "SF8BW125" "EU_863_870" .eu863 ∧
    (heardWell.downlink { clear := .silent } {} slowDevice).result ≠ .ok () ∧
    ∃ err, (heardWell.downlink { clear := .silent } {} slowDevice).result =
      .error (.error (.store err)) := by
  have hlisted : slowDevice.adr.Listed "SF8BW125" "EU_863_870" .eu863 :=
    ⟨rfl, rfl, by decide +kernel, rfl, by decide +kernel, fun _ h ↦ by cases h⟩
  have hrefused : (heardWell.downlink { clear := .silent } {} slowDevice).result ≠ .ok () := by
    decide +kernel
  have hvalid : heardWell.config.validate = .ok () := by decide +kernel
  have hmac : ({} : Downlink).mac ≠ none := by decide
  obtain ⟨hresult, -⟩ := downlink_ok_or_store hvalid hmac hlisted
  exact ⟨hlisted, hrefused, hresult.resolve_left hrefused⟩

end Engine

end AdaptiveRate
