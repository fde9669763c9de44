import AdaptiveRate.Proofs.Ledger
import AdaptiveRate.Simulation
import Mathlib.Data.Finset.Card

theorem UInt8.max_one_max_one (n : UInt8) : max (max n 1) 1 = max n 1 := by
  have hpos : ¬ max n 1 < 1 := by
    rw [UInt8.max_one]
    split
    · decide
    · assumption
  rw [UInt8.max_one (max n 1), if_neg hpos]

namespace AdaptiveRate.Simulation

open AdaptiveRate.History

def arriving (lost : List UInt32) (n : Nat) : List UInt32 :=
  ((List.range n).map UInt32.ofNat).filter (· ∉ lost)

section Counters

variable (lost : List UInt32)

theorem arriving_succ (n : Nat) : arriving lost (n + 1) =
    arriving lost n ++ if UInt32.ofNat n ∈ lost then [] else [UInt32.ofNat n] := by
  rw [arriving, List.range_succ, List.map_append, List.filter_append, List.map_singleton,
    List.filter_singleton, ← arriving]
  by_cases h : UInt32.ofNat n ∈ lost <;> simp [h]

theorem arriving_mono {m n : Nat} (h : m ≤ n) : arriving lost m <+: arriving lost n := by
  obtain ⟨k, rfl⟩ := Nat.exists_eq_add_of_le h
  apply List.IsPrefix.filter
  rw [List.range_add, List.map_append]
  exact List.prefix_append _ _

/-- A counter is either among those that arrive or one of the lost ones. -/
theorem le_length_arriving {n : Nat} (h : n ≤ UInt32.size) :
    n ≤ (arriving lost n).length + lost.toFinset.card := by
  let counters := (List.range n).map UInt32.ofNat
  have hnodup : counters.Nodup := by
    refine List.Nodup.map_on ?_ List.nodup_range
    intro a ha b hb heq
    have ha := List.mem_range.1 ha
    have hb := List.mem_range.1 hb
    rw [← UInt32.toNat_ofNat_of_lt' (ha.trans_le h), heq, UInt32.toNat_ofNat_of_lt' (hb.trans_le h)]
  have hlost : (counters.filter (· ∈ lost)).length ≤ lost.toFinset.card := by
    rw [← List.toFinset_card_of_nodup (hnodup.filter _)]
    apply Finset.card_le_card
    intro c hc
    simpa using (List.mem_filter.1 (List.mem_toFinset.1 hc)).2
  have hlen : counters.length = n := by rw [List.length_map, List.length_range]
  have hsplit : counters.length =
      (arriving lost n).length + (counters.filter (· ∈ lost)).length := by
    simpa only [arriving, decide_not, Bool.not_not] using
      List.length_eq_length_filter_add (l := counters) (· ∉ lost)
  omega

end Counters

variable (s : Simulation)

/-- The least counters that are not lost, as many as there are frames. -/
def counters : List UInt32 := (arriving s.lost UInt32.size).take s.frames.toNat

variable {s} in
theorem counters_eq {n : Nat} (hn : n ≤ UInt32.size)
    (hlen : (arriving s.lost n).length = s.frames.toNat) : s.counters = arriving s.lost n := by
  rw [counters, ← hlen]
  exact (List.prefix_iff_eq_take.1 (arriving_mono s.lost hn)).symm

def uplinksOf (counters : List UInt32) : List Uplink :=
  counters.mapIdx fun i counter ↦ s.uplink counter (i + 1 == s.frames.toNat)

def frame (counter : UInt32) : Frame := ⟨counter, s.snr, 1⟩

def deviceAfter : Nat → Device
  | 0 => s.device
  | n + 1 => { s.device with adr :=
      { band := some s.band
        dataRate := some s.dataRate
        transmissions := max s.transmissions 1
        requestOwed := n + 1 == s.frames.toNat } }

theorem key_deviceAfter (n : Nat) : (s.deviceAfter n).key = s.device.key := by
  cases n <;> rfl

theorem heard_deviceAfter {n : Nat} (hn : n < s.frames.toNat) (counter : UInt32) :
    (s.deviceAfter n).heard ⟨counter, true, n + 1 == s.frames.toNat⟩ ⟨s.dataRate, none⟩ =
      s.deviceAfter (n + 1) := by
  cases n with
  | zero => simp [deviceAfter, Device.heard, device]
  | succ n =>
    have hlast : (n + 1 == s.frames.toNat) = false := by simpa using hn.ne
    simp [deviceAfter, Device.heard, device, hlast, UInt8.max_one_max_one]

theorem hear_uplink (d : Device) (counter : UInt32) (last : Bool) :
    ∃ m, Ledger.hear (s.uplink counter last) d =
      ⟨.ok (), .uplink m, d.heard ⟨counter, true, last⟩ ⟨s.dataRate, none⟩⟩ := by
  cases last <;> exact ⟨_, rfl⟩

theorem note_uplink (l : Ledger) (d : Device) (counter : UInt32) (last : Bool) :
    l.note ⟨.uplink (s.uplink counter last), d⟩ (Ledger.hear (s.uplink counter last) d) =
      l.add d.key (s.frame counter) := by
  cases last <;> rfl

structure Progress (config : Config) (n : Nat) (t : Trial) : Prop where
  size_le : t.sent.size ≤ s.frames.toNat
  sent_eq : t.sent.toList = s.uplinksOf (arriving s.lost n)
  device_eq : t.device = s.deviceAfter t.sent.size
  tracks : ∃ l : Ledger, t.engine.Tracks config l t.sent.size ∧
    l.past s.device.key = (arriving s.lost n).map s.frame

structure Finished (config : Config) (t : Trial) : Prop where
  length_counters : s.counters.length = s.frames.toNat
  sent_eq : t.sent.toList = s.uplinksOf s.counters
  device_eq : t.device = s.deviceAfter s.frames.toNat
  tracks : ∃ l : Ledger, t.engine.Tracks config l s.frames.toNat ∧
    l.past s.device.key = s.counters.map s.frame

variable {s} {config : Config} {n : Nat} {t : Trial}

theorem Progress.length_eq (h : s.Progress config n t) :
    (arriving s.lost n).length = t.sent.size := by
  have hlen := congrArg List.length h.sent_eq
  simpa [uplinksOf] using hlen.symm

theorem Progress.skip (h : s.Progress config n t) (hlost : UInt32.ofNat n ∈ s.lost)
    (log : List LogRecord) : s.Progress config (n + 1) { t with log } := by
  have hsame : arriving s.lost (n + 1) = arriving s.lost n := by
    rw [arriving_succ, if_pos hlost, List.append_nil]
  exact ⟨h.size_le, hsame ▸ h.sent_eq, h.device_eq, hsame ▸ h.tracks⟩

theorem Progress.hear (h : s.Progress config n t) (hlt : t.sent.size < s.frames.toNat)
    (harrives : UInt32.ofNat n ∉ s.lost) {m : Uplink} {reply : Reply Uplink}
    (hm : m = s.uplink (.ofNat n) (t.sent.size + 1 == s.frames.toNat))
    (hreply : reply = t.engine.uplink {} m t.device) (log : List LogRecord) :
    reply.result = .ok () ∧ s.Progress config (n + 1)
      { t with
        engine := { t.engine with store := reply.store }
        device := reply.device
        sent := t.sent.push m
        log } := by
  have hmore : arriving s.lost (n + 1) = arriving s.lost n ++ [UInt32.ofNat n] := by
    rw [arriving_succ, if_neg harrives]
  obtain ⟨l, htracks, hpast⟩ := h.tracks
  have hsmall : t.sent.size < UInt64.size := by
    have hframes := s.frames.toNat_lt_size
    simp only [UInt32.size, UInt64.size] at hframes ⊢
    omega
  obtain ⟨hanswer, hnext⟩ := htracks.uplink hsmall m t.device
  obtain ⟨m', hhear⟩ := s.hear_uplink t.device (.ofNat n) (t.sent.size + 1 == s.frames.toNat)
  rw [hm, note_uplink, ← hm, ← hreply] at hnext
  rw [hm, hhear, ← hm, ← hreply] at hanswer
  refine ⟨congrArg Answer.result hanswer, ?_, ?_, ?_, ?_⟩
  · simpa using Nat.succ_le_of_lt hlt
  · rw [Array.toList_push, h.sent_eq, hmore, uplinksOf, uplinksOf, List.mapIdx_concat,
      h.length_eq, hm]
  · have hdevice : reply.device = _ := congrArg Answer.device hanswer
    rw [Array.size_push, hdevice, h.device_eq, heard_deviceAfter s hlt]
  · refine ⟨_, by simpa using hnext, ?_⟩
    rw [hmore, List.map_append, ← hpast, h.device_eq, key_deviceAfter]
    simp [Ledger.add]

theorem Progress.advance (h : s.Progress config (t.next.toNat + 1) t)
    (hroom : t.next.toNat + 1 < UInt32.size) :
    ∃ t', t.advance = (.ok (), t') ∧ s.Progress config t'.next.toNat t' := by
  have hnext : (t.next + 1).toNat = t.next.toNat + 1 :=
    (UInt32.toNat_add t.next 1).trans (Nat.mod_eq_of_lt hroom)
  refine ⟨{ t with next := t.next + 1 }, if_pos hroom, ?_⟩
  rw [hnext]
  exact ⟨h.size_le, h.sent_eq, h.device_eq, h.tracks⟩

theorem Progress.turn (h : s.Progress config t.next.toNat t) (hlt : t.sent.size < s.frames.toNat)
    (hcount : s.frames.toNat + s.lost.toFinset.card < UInt32.size) :
    ∃ t', s.turn t = (.ok (), t') ∧ s.Progress config t'.next.toNat t' := by
  -- Every counter looked at so far was either sent or lost, which leaves room for the next one.
  have hroom : t.next.toNat + 1 < UInt32.size := by
    have hle := le_length_arriving s.lost t.next.toNat_lt_size.le
    rw [h.length_eq] at hle
    omega
  unfold Simulation.turn
  split
  · next hlost =>
    refine Progress.advance (h.skip ?_ _) hroom
    simpa using hlost
  · next harrives =>
    obtain ⟨hresult, hheard⟩ := h.hear hlt (by simpa using harrives) rfl rfl _
    rw [UInt32.ofNat_toNat] at hresult hheard
    simp only [hresult]
    exact hheard.advance hroom

theorem Progress.finished (h : s.Progress config t.next.toNat t)
    (hsize : t.sent.size = s.frames.toNat) : s.Finished config t := by
  have hlen := h.length_eq.trans hsize
  have hcounters := counters_eq t.next.toNat_lt_size.le hlen
  obtain ⟨-, hsent, hdevice, htracks⟩ := h
  rw [← hcounters] at hlen hsent htracks
  rw [hsize] at hdevice htracks
  exact ⟨hlen, hsent, hdevice, htracks⟩

/-- The loop ends once all frames have been sent. -/
theorem Progress.loop (h : s.Progress config t.next.toNat t)
    (hcount : s.frames.toNat + s.lost.toFinset.card < UInt32.size) :
    ∃ t', s.loop t = (.ok (), t') ∧ s.Finished config t' := by
  fun_induction Simulation.loop s t with
  | case1 t hlt t' hturn ih =>
    obtain ⟨_, heq, hnext⟩ := h.turn hlt hcount
    cases hturn.symm.trans heq
    exact ih hnext
  | case2 t hlt stop t' hturn =>
    -- A turn does not stop as long as there are frames to send.
    obtain ⟨_, heq, -⟩ := h.turn hlt hcount
    cases hturn.symm.trans heq
  | case3 t hge => exact ⟨t, rfl, h.finished (Nat.le_antisymm h.size_le (Nat.not_lt.1 hge))⟩

theorem progress_start (hvalid : config.Valid)
    (haffordable : Store.Affordable config.historyCapacity.toNat) :
    s.Progress config (s.start config).next.toNat (s.start config) where
  size_le := Nat.zero_le _
  sent_eq := rfl
  device_eq := rfl
  tracks := ⟨.empty, Service.start_tracks hvalid haffordable, rfl⟩

end AdaptiveRate.Simulation
