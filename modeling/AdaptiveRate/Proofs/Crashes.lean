import AdaptiveRate.Proofs.Engine.Crash
import AdaptiveRate.Proofs.Ledger
import AdaptiveRate.Proofs.Range

namespace AdaptiveRate

open AdaptiveRate.History

namespace History.Store

variable {s s' : Store} (key : DeviceKey) (frame : Frame)

structure Barren (s : Store) : Prop where
  unaffordable : ¬ Affordable s.capacity
  empty : ∃ rings, s.rings = some rings ∧ ∀ key, rings.get? key = none

theorem Barren.push (h : s.Barren) :
    s.push key frame = (.error (.crash .oversized), ⟨s.capacity, none⟩) := by
  obtain ⟨capacity, _⟩ := s
  obtain ⟨hcap, rings, rfl, hnone⟩ := h
  have hmake : Ring.make? capacity = none := if_pos (Nat.not_le.1 hcap)
  simp [Store.push, hnone, hmake]

theorem Barren.clear {result : Except StoreError Unit} (h : s.Barren)
    (hclear : s.clear key = (result, s')) : s'.Barren := by
  obtain ⟨capacity, _⟩ := s
  obtain ⟨hcap, rings, rfl, hnone⟩ := h
  cases hclear
  exact ⟨hcap, _, rfl, by simp [hnone]⟩

theorem push_lost (h : s.rings = none) : s.push key frame = (.error (.error (.store lost)), s) := by
  obtain ⟨capacity, _⟩ := s
  cases h
  rfl

theorem clear_lost (h : s.rings = none) : s.clear key = (.error lost, s) := by
  simp [clear, h]

end History.Store

/-- The call is an uplink whose frame is to be stored. -/
def Call.Records (c : Call) : Prop := ∃ m mac metadata, c.message = .uplink m ∧ m.mac = some mac ∧
  mac.adr = true ∧ Engine.accept m mac = .ok metadata

def Answer.Crashed (a : Answer) : Prop := ∃ c, a.result = .error (.crash c)

namespace Service

variable {config : Config} {calls : List Call} {s : Service} {c : Call} (medium : Medium)

theorem config_serve (s : Service) (c : Call) :
    (s.serve medium c).1.engine.config = s.engine.config := by
  obtain ⟨message, d⟩ := c
  cases message <;> rfl

theorem valid_serve (h : s.engine.config.Valid) (c : Call) :
    (s.serve medium c).1.engine.config.Valid := by
  rwa [config_serve]

theorem config_run (s : Service) (calls : List Call) :
    (Machine.run (serve medium) s calls).1.engine.config = s.engine.config := by
  induction calls generalizing s with
  | nil => rfl
  | cons c calls ih => exact (ih _).trans (config_serve medium s c)

theorem serve_records (h : c.Records) : ∃ frame,
    (s.serve medium c).1.engine.store = (s.engine.push medium c.device.key frame).2 ∧
      ((s.serve medium c).2.Crashed ↔
        ∃ crash, (s.engine.push medium c.device.key frame).1 = .error (.crash crash)) := by
  obtain ⟨message, d⟩ := c
  obtain ⟨m, mac, metadata, hmessage, hm, hadr, haccept⟩ := h
  cases hmessage
  have hheard := s.engine.heard medium m d
  refine ⟨m.frame mac, ?_, exists_congr fun crash ↦ hheard.crash_iff.trans ?_⟩
  · change (s.engine.uplink medium m d).store = _
    generalize s.engine.uplink medium m d = r at hheard
    cases hheard with
    | refused hon =>
      rw [(hon mac hm).2] at haccept
      cases haccept
    | switchedOff hm' hadr' =>
      cases hm.symm.trans hm'
      rw [hadr] at hadr'
      cases hadr'
    | crashed hm' _ _ hpush | recorded hm' _ _ hpush =>
      cases hm.symm.trans hm'
      rw [hpush]
  · constructor
    · rintro ⟨mac', metadata', hm', -, -, hcrash⟩
      cases hm.symm.trans hm'
      exact hcrash
    · exact fun hcrash ↦ ⟨mac, metadata, hm, hadr, haccept, hcrash⟩

theorem serve_not_records (hvalid : s.engine.config.Valid) (h : ¬ c.Records) :
    ¬ (s.serve medium c).2.Crashed ∧
      ((s.serve medium c).1.engine.store = s.engine.store ∨
        ∃ result, s.engine.store.clear c.device.key =
          (result, (s.serve medium c).1.engine.store)) := by
  obtain ⟨message, d⟩ := c
  cases message with
  | uplink m =>
    have hheard := s.engine.heard medium m d
    refine ⟨?_, ?_⟩
    · rintro ⟨crash, hcrash⟩
      obtain ⟨mac, metadata, hm, hadr, haccept, -⟩ := hheard.crash_iff.1 hcrash
      exact h ⟨m, mac, metadata, rfl, hm, hadr, haccept⟩
    · change (s.engine.uplink medium m d).store = s.engine.store ∨
        ∃ result, s.engine.store.clear d.key = (result, (s.engine.uplink medium m d).store)
      generalize s.engine.uplink medium m d = r at hheard
      cases hheard with
      | refused => exact .inl rfl
      | switchedOff _ _ hclear => exact Engine.store_of_clear hclear
      | crashed hm hadr haccept | recorded hm hadr haccept =>
        exact absurd ⟨m, _, _, rfl, hm, hadr, haccept⟩ h
  | downlink m =>
    refine ⟨fun ⟨crash, hcrash⟩ ↦ Engine.downlink_ne_crash hvalid m crash hcrash, ?_⟩
    change (s.engine.downlink medium m d).store = s.engine.store ∨
      ∃ result, s.engine.store.clear d.key = (result, (s.engine.downlink medium m d).store)
    have hanswered := s.engine.answered medium m d
    generalize s.engine.downlink medium m d = r at hanswered
    cases hanswered with
    | kept | settled => exact .inl rfl
    | emitted _ hclear => exact Engine.store_of_clear hclear

theorem serve_lost (hvalid : s.engine.config.Valid) (h : s.engine.store.rings = none) (c : Call) :
    ¬ (s.serve {} c).2.Crashed ∧ (s.serve {} c).1.engine.store.rings = none := by
  by_cases hc : c.Records
  · obtain ⟨frame, hstore, hcrash⟩ := serve_records (s := s) {} hc
    have hpush : s.engine.push {} c.device.key frame = _ := Store.push_lost c.device.key frame h
    rw [hpush] at hstore hcrash
    refine ⟨?_, by rw [hstore, h]⟩
    rw [hcrash]
    rintro ⟨crash, ⟨⟩⟩
  · obtain ⟨hcrash, hsame | ⟨result, hclear⟩⟩ := serve_not_records {} hvalid hc
    · exact ⟨hcrash, by rw [hsame, h]⟩
    · rw [Store.clear_lost c.device.key h] at hclear
      have hsame := (Prod.mk.inj hclear).2
      exact ⟨hcrash, by rw [← hsame, h]⟩

theorem run_lost (hvalid : s.engine.config.Valid) (h : s.engine.store.rings = none)
    (calls : List Call) : (Machine.run (serve {}) s calls).1.engine.store.rings = none := by
  induction calls generalizing s with
  | nil => exact h
  | cons c calls ih => exact ih (valid_serve {} hvalid c) (serve_lost hvalid h c).2

/-- As long as no frame is to be stored, a store that can take none goes unnoticed. -/
theorem run_barren (hvalid : s.engine.config.Valid) (h : s.engine.store.Barren)
    (calls : List Call) :
    let (s', answers) := Machine.run (serve {}) s calls
    (∃ c ∈ calls, c.Records) ∧ (∃ a ∈ answers, a.Crashed) ∧ s'.engine.store.rings = none ∨
      (∀ c ∈ calls, ¬ c.Records) ∧ (∀ a ∈ answers, ¬ a.Crashed) ∧ s'.engine.store.Barren := by
  induction calls generalizing s with
  | nil => exact .inr ⟨by simp, by simp, h⟩
  | cons c calls ih =>
    have hnext := valid_serve {} hvalid c
    -- The first frame to be stored costs the store, and what comes after no longer matters.
    by_cases hc : c.Records
    · obtain ⟨frame, hstore, hcrash⟩ := serve_records (s := s) {} hc
      have hpush : s.engine.push {} c.device.key frame = _ := h.push c.device.key frame
      rw [hpush] at hstore hcrash
      refine .inl ⟨⟨c, List.mem_cons_self, hc⟩, ⟨_, List.mem_cons_self, hcrash.2 ⟨_, rfl⟩⟩, ?_⟩
      exact run_lost hnext (by rw [hstore]) calls
    · obtain ⟨hcrash, hstore⟩ := serve_not_records {} hvalid hc
      have hbarren : (s.serve {} c).1.engine.store.Barren := by
        rcases hstore with hsame | ⟨result, hclear⟩
        · rwa [hsame]
        · exact h.clear c.device.key hclear
      rcases ih hnext hbarren with ⟨⟨c', hc', hrecords⟩, ⟨a, ha, hcrashed⟩, hlost⟩ |
          ⟨hnone, hcalm, hlast⟩
      · exact .inl ⟨⟨c', List.mem_cons_of_mem c hc', hrecords⟩,
          ⟨a, List.mem_cons_of_mem _ ha, hcrashed⟩, hlost⟩
      · exact .inr ⟨List.forall_mem_cons.2 ⟨hc, hnone⟩, List.forall_mem_cons.2 ⟨hcrash, hcalm⟩,
          hlast⟩

theorem serve_calm {l : Ledger} {n : Nat} (hn : n < UInt64.size) (h : s.engine.Tracks config l n)
    (c : Call) : ¬ (s.serve {} c).2.Crashed := by
  have hvalid : s.engine.config.Valid := h.config_eq ▸ h.valid
  by_cases hc : c.Records
  · obtain ⟨frame, -, hcrash⟩ := serve_records (s := s) {} hc
    obtain ⟨store, hpush, -⟩ := h.push hn c.device.key frame
    rw [hcrash, hpush]
    rintro ⟨crash, ⟨⟩⟩
  · exact (serve_not_records {} hvalid hc).1

end Service

theorem Engine.Tracks.inRange {e : Engine} {config : Config} {l : Ledger} {n : Nat}
    (h : e.Tracks config l n) (hn : n < UInt64.size) : e.InRange := by
  obtain ⟨rings, hrings, hslot⟩ := h.keeps.slots
  refine inRange_of_rings (h.config_eq ▸ h.valid) fun rings' key r hrings' hr ↦ ?_
  cases hrings.symm.trans hrings'
  have hk := hslot key
  rw [hr, h.capacity_eq] at hk
  obtain ⟨hcap, hholds⟩ := hk
  refine hholds.inRange ?_ ((h.length_le key).trans_lt hn)
  rw [hcap]
  exact h.affordable

namespace Service

variable {config : Config} {calls : List Call}

theorem calm_of_affordable (hvalid : config.Valid)
    (haffordable : Store.Affordable config.historyCapacity.toNat)
    (hcalls : calls.length < UInt64.size) : (∀ a ∈ (after config calls).2, ¬ a.Crashed) ∧
      (after config calls).1.engine.store.rings ≠ none ∧
      (after config calls).1.engine.InRange := by
  have hrun := Machine.run_forall
    (R := fun n (s : Service) ↦ ∃ l, s.engine.Tracks config l n)
    (P := fun a : Answer ↦ ¬ a.Crashed)
    (fun n s c hn ⟨l, h⟩ ↦ ⟨serve_calm hn h c, _, (serve_tracks c hn h).2⟩)
    calls (n := 0) (by omega) ⟨.empty, start_tracks hvalid haffordable⟩
  rw [Nat.zero_add] at hrun
  obtain ⟨hcalm, l, htracks⟩ := hrun
  refine ⟨hcalm, ?_, htracks.inRange hcalls⟩
  obtain ⟨rings, hrings, -⟩ := htracks.keeps.slots
  intro hlost
  cases hrings.symm.trans hlost

theorem barren_start (hoversized : ¬ Store.Affordable config.historyCapacity.toNat) :
    (start (.inMemory config)).engine.store.Barren :=
  ⟨hoversized, _, rfl, fun _ ↦ rfl⟩

theorem valid_after (hvalid : config.Valid) : (after config calls).1.engine.config.Valid := by
  rw [after, config_run]
  exact hvalid

theorem calm_of_oversized (hvalid : config.Valid)
    (hoversized : ¬ Store.Affordable config.historyCapacity.toNat)
    (hnone : ∀ c ∈ calls, ¬ c.Records) : (∀ a ∈ (after config calls).2, ¬ a.Crashed) ∧
      (after config calls).1.engine.store.rings ≠ none ∧
      (after config calls).1.engine.InRange := by
  rcases run_barren hvalid (barren_start hoversized) calls with
    ⟨⟨c, hc, hrecords⟩, -⟩ | ⟨-, hcalm, -, rings, hrings, hempty⟩
  · exact absurd hrecords (hnone c hc)
  · refine ⟨hcalm, ?_, Engine.inRange_of_rings (valid_after hvalid) ?_⟩
    · intro hlost
      cases hrings.symm.trans hlost
    · intro rings' key r hrings' hr
      cases hrings.symm.trans hrings'
      cases (hempty key).symm.trans hr

theorem crashed_of_oversized (hvalid : config.Valid)
    (hoversized : ¬ Store.Affordable config.historyCapacity.toNat)
    (hrecords : ∃ c ∈ calls, c.Records) : (∃ a ∈ (after config calls).2, a.Crashed) ∧
      (after config calls).1.engine.store.rings = none ∧
      (after config calls).1.engine.InRange := by
  rcases run_barren hvalid (barren_start hoversized) calls with
    ⟨-, hcrashed, hlost⟩ | ⟨hnone, -⟩
  · refine ⟨hcrashed, hlost, Engine.inRange_of_rings (valid_after hvalid) ?_⟩
    intro rings key r hrings
    cases hlost.symm.trans hrings
  · obtain ⟨c, hc, hr⟩ := hrecords
    exact absurd hr (hnone c hc)

/-- A configuration without defects may still ask for more room than there can be. -/
theorem crashes_iff (hvalid : config.validate = .ok ()) (hcalls : calls.length < 2 ^ 64) :
    ((∃ a ∈ (after config calls).2, a.Crashed) ↔
      2 ^ 63 - 1 < config.historyCapacity.toNat * 12 ∧ ∃ c ∈ calls, c.Records) ∧
    ((after config calls).1.engine.store.rings = none ↔
      2 ^ 63 - 1 < config.historyCapacity.toNat * 12 ∧ ∃ c ∈ calls, c.Records) ∧
    (after config calls).1.engine.InRange := by
  have hv := Config.validate_eq_ok_iff.1 hvalid
  have hroom : 2 ^ 63 - 1 < config.historyCapacity.toNat * 12 ↔
      ¬ Store.Affordable config.historyCapacity.toNat := by
    rw [Store.affordable_iff, Nat.not_le]
  rw [hroom]
  by_cases hbad : ¬ Store.Affordable config.historyCapacity.toNat ∧ ∃ c ∈ calls, c.Records
  · obtain ⟨hcrashed, hlost, hrange⟩ := crashed_of_oversized hv hbad.1 hbad.2
    exact ⟨iff_of_true hcrashed hbad, iff_of_true hlost hbad, hrange⟩
  · have hcalm : (∀ a ∈ (after config calls).2, ¬ a.Crashed) ∧
        (after config calls).1.engine.store.rings ≠ none ∧
        (after config calls).1.engine.InRange := by
      by_cases haffordable : Store.Affordable config.historyCapacity.toNat
      · exact calm_of_affordable hv haffordable hcalls
      · exact calm_of_oversized hv haffordable fun c hc hr ↦ hbad ⟨haffordable, c, hc, hr⟩
    obtain ⟨hcalm, hkept, hrange⟩ := hcalm
    refine ⟨iff_of_false ?_ hbad, iff_of_false hkept hbad, hrange⟩
    rintro ⟨a, ha, hcrashed⟩
    exact hcalm a ha hcrashed

theorem not_crashes_default : ¬ ∃ a ∈ (after {} [⟨.uplink { Uplink.make 1 "SF8BW125" with
    mac := some { counter := 1, adr := true } }, { appId := "app", devId := "dev" }⟩]).2,
      a.Crashed := by
  have hvalid : Config.validate {} = .ok () := by
    rw [Config.validate_eq_ok_iff]
    constructor <;> decide +kernel
  rw [(crashes_iff hvalid (by decide)).1]
  rintro ⟨hlt, -⟩
  exact absurd hlt (by decide)

theorem crash_of_oversized : ∃ (config : Config) (calls : List Call),
    config.historyCapacity = 1152921504606846976 ∧ config.validate = .ok () ∧ calls.length = 1 ∧
      (∃ a ∈ (after config calls).2, a.Crashed) ∧
      (after config calls).1.engine.store.rings = none := by
  refine ⟨{ historyCapacity := 1152921504606846976 }, [⟨.uplink { Uplink.make 1 "SF8BW125" with
    mac := some { counter := 1, adr := true } }, { appId := "app", devId := "dev" }⟩], rfl, ?_, rfl,
    ⟨_, List.mem_cons_self, .oversized, ?_⟩, ?_⟩
  · rw [Config.validate_eq_ok_iff]
    constructor <;> decide +kernel
  · decide +kernel
  · exact Option.isNone_iff_eq_none.1 (by decide +kernel)

end Service

end AdaptiveRate
