import AdaptiveRate.Band.Plans
import AdaptiveRate.Proofs.Number.Exact
import Mathlib.Data.List.Nodup

namespace List

theorem find?_key {α β : Type} [BEq β] [LawfulBEq β] {key : α → β} {l : List α}
    (h : (l.map key).Nodup) {a : α} (ha : a ∈ l) : l.find? (key · == key a) = some a := by
  induction l with
  | nil => cases ha
  | cons b l ih =>
    obtain ⟨hb, hl⟩ := nodup_cons.1 h
    rcases mem_cons.1 ha with rfl | ha
    · simp
    · have hne : key b ≠ key a := fun he ↦ hb (he ▸ mem_map_of_mem ha)
      rw [find?_cons_of_neg (by simpa using hne)]
      exact ih hl ha

end List

namespace AdaptiveRate

open AdaptiveRate.Number

namespace Band

theorem mem_all (b : Band) : b ∈ all := by cases b <;> decide

theorem name_of_ofName {s : String} {b : Band} (h : ofName s = .ok b) : b.name = s := by
  unfold ofName at h
  split at h
  · next b' hf =>
    cases h
    simpa using List.find?_some hf
  · cases h

theorem ne_blank_of_ofName {s : String} {b : Band} (h : ofName s = .ok b) : s ≠ "" := by
  rw [← name_of_ofName h]
  cases b <;> decide

theorem ofName_name (b : Band) : ofName b.name = .ok b := by
  have hnames : (all.map name).Nodup := by decide +kernel
  have hfind : all.find? (·.name == b.name) = some b := List.find?_key hnames b.mem_all
  rw [ofName, hfind]

theorem name_injective : Function.Injective name := by
  intro b b' h
  have hb : ofName b.name = .ok b' := h ▸ ofName_name b'
  exact Except.ok.inj ((ofName_name b).symm.trans hb)

end Band

namespace ChannelPlan

/-- Entries of a table are told apart by what they are looked up by, and fit a request. -/
structure Lawful (p : ChannelPlan) : Prop where
  names_nodup : (p.dataRates.map (·.name)).Nodup
  indices_ascend : (p.dataRates.map (·.index)).Pairwise (· < ·)
  powers_nodup : p.txPowers.Nodup
  powers_length : p.txPowers.length ≤ 16
  channels_lt : ∀ c ∈ p.defaultChannels, c.toNat < 16

theorem lawful (b : Band) : b.plan.Lawful := by
  cases b <;> constructor <;> decide +kernel

theorem fits_step : Format.single.Fits (3 * Format.single.one) :=
  Format.single.fits_mul_one (by decide) (by decide)

theorem step_eq (b : Band) :
    b.plan.step = .finite false (3 * Format.single.one) fits_step := by
  have hstep : b.plan.step = .ofNat 3 := by cases b <;> simp only [Band.plan, stepDb]
  rw [hstep]
  exact Binary.ofNat_eq _

theorem isFinite_requiredSnr (b : Band) : ∀ rate ∈ b.plan.dataRates,
    rate.requiredSnr.isFinite = true := by
  cases b <;> decide +kernel

theorem name_ne_blank (b : Band) : ∀ rate ∈ b.plan.dataRates, rate.name ≠ "" := by
  cases b <;> decide +kernel

variable {p : ChannelPlan}

theorem index_of_dataRateByIndex {i : UInt8} {rate : DataRate}
    (h : p.dataRateByIndex i = some rate) : rate.index = i := by
  simpa using List.find?_some h

theorem mem_indices_of_dataRateByIndex {i : UInt8} {rate : DataRate}
    (h : p.dataRateByIndex i = some rate) : i ∈ p.dataRates.map (·.index) := by
  rw [← index_of_dataRateByIndex h]
  exact List.mem_map_of_mem (List.mem_of_find?_eq_some h)

theorem Lawful.dataRate_name (hp : p.Lawful) {rate : DataRate} (h : rate ∈ p.dataRates) :
    p.dataRate rate.name = .ok rate := by
  have hfind : p.dataRates.find? (·.name == rate.name) = some rate :=
    List.find?_key hp.names_nodup h
  rw [dataRate, hfind]

theorem Lawful.dataRateIndex_name (hp : p.Lawful) {i : UInt8} {rate : DataRate}
    (h : p.dataRateByIndex i = some rate) : p.dataRateIndex rate.name = .ok i := by
  rw [dataRateIndex, hp.dataRate_name (List.mem_of_find?_eq_some h),
    ← index_of_dataRateByIndex h]
  rfl

theorem Lawful.txPowerIndex_dbm (hp : p.Lawful) {i : UInt8} {dbm : Int8}
    (h : p.txPowerDbm i = some dbm) : p.txPowerIndex dbm = .ok i := by
  obtain ⟨hi, hdbm⟩ := List.getElem?_eq_some_iff.1 h
  have hfind : p.txPowers.findIdx? (· == dbm) = some i.toNat := by
    rw [List.findIdx?_eq_some_iff_getElem]
    refine ⟨hi, by simpa using hdbm, fun j hj ↦ ?_⟩
    have hne : p.txPowers[j] ≠ p.txPowers[i.toNat] := fun he ↦
      absurd (hp.powers_nodup.getElem_inj_iff.1 he) (Nat.ne_of_lt hj)
    simpa [hdbm] using hne
  rw [txPowerIndex, hfind]
  simp

end ChannelPlan

end AdaptiveRate
