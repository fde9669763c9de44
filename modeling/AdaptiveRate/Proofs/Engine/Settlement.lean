import AdaptiveRate.Proofs.Engine.Crash
import AdaptiveRate.Proofs.History.Room

namespace AdaptiveRate

open AdaptiveRate.History

namespace History.Store

variable {s s' : Store} {key : DeviceKey} {frame : Frame} {n room : Nat}

/-- As far as it can be read, the history of the key has at least so many frames. -/
def AtLeast (s : Store) (key : DeviceKey) (n : Nat) : Prop :=
  ∀ frames, s.get key = .ok frames → n ≤ frames.length

theorem atLeast_zero (s : Store) (key : DeviceKey) : s.AtLeast key 0 :=
  fun frames _ ↦ frames.length.zero_le

theorem atLeast_of_lost (h : s.rings = none) : s.AtLeast key n := by
  intro frames hget
  simp only [get, h] at hget
  cases hget

theorem AtLeast.congr (h : s.AtLeast key n) (hget : s'.get key = s.get key) : s'.AtLeast key n :=
  fun frames hframes ↦ h frames (hget ▸ hframes)

theorem AtLeast.push (h : s.AtLeast key (min n room)) (huniform : s.Uniform room)
    (hpush : s.push key frame = (.ok (), s')) : s'.AtLeast key (min (n + 1) room) := by
  obtain ⟨frames, hget, hget'⟩ := get_push hpush
  intro frames' hframes'
  rw [hget'] at hframes'
  cases hframes'
  have hlen := h frames hget
  rw [length_extend (s.room_pos key) (length_le_room hget), huniform.2 key]
  omega

end History.Store

/-- The band is not known yet, or one in which a single request will do. -/
def AdrState.Placed (s : AdrState) : Prop := ∀ band, s.band = some band →
  band = "" ∨ ∃ b, Band.ofName band = .ok b ∧ b.plan.linkAdrSupported = true

/-- An uplink that tells the data rate of its device and places it, if it has no band yet. -/
structure Uplink.Informs (m : Uplink) : Prop where
  mac : ∃ mac, m.mac = some mac ∧ mac.adr = true
  metadata : ∃ metadata plan b, m.metadata = some metadata ∧ metadata.dataRate ≠ "" ∧
    metadata.frequencyPlan = some plan ∧ Band.ofName plan = .ok b ∧
    b.plan.linkAdrSupported = true

def Verdict.settles : Verdict → Bool
  | .settled _ | .order _ => true
  | _ => false

namespace Engine

variable {e : Engine} {medium : Medium} {d : Device} {room n : Nat}

theorem uniform_push {key : DeviceKey} {frame : Frame} {pushed : Except Stop Unit} {store : Store}
    (h : e.store.Uniform room) (hpush : e.push medium key frame = (pushed, store)) :
    store.Uniform room := by
  rcases store_of_push hpush with rfl | hpush
  · exact h
  · exact h.push hpush

theorem uniform_clear {key : DeviceKey} {result : Except Stop Unit} {store : Store}
    (h : e.store.Uniform room) (hclear : e.clear medium key = (result, store)) :
    store.Uniform room := by
  rcases store_of_clear hclear with rfl | ⟨result, hclear⟩
  · exact h
  · exact h.clear hclear

section Uplinks

variable {m : Uplink} {r : Reply Uplink}

theorem Heard.uniform (h : e.Heard medium m d r) (huniform : e.store.Uniform room) :
    r.store.Uniform room := by
  cases h with
  | refused => exact huniform
  | switchedOff _ _ hclear => exact uniform_clear huniform hclear
  | crashed _ _ _ hpush | recorded _ _ _ hpush => exact uniform_push huniform hpush

/-- Only a store that is lost refuses the frame, and then nothing can be read any more. -/
theorem Heard.atLeast (h : e.Heard medium m d r) (hprompt : medium.push = .prompt)
    (hinforms : m.Informs) (hok : r.result = .ok ()) (huniform : e.store.Uniform room)
    (hn : e.store.AtLeast d.key (min n room)) : r.store.AtLeast d.key (min (n + 1) room) := by
  obtain ⟨mac, hm, hadr⟩ := hinforms.mac
  obtain ⟨metadata, pushed, -, hpush, hpushed, -⟩ := h.recorded_of_ok hm hadr hok
  have hdirect : e.store.push d.key (m.frame mac) = (pushed, r.store) := by
    simpa only [push, hprompt, Condition.within] using hpush
  cases pushed with
  | ok => exact hn.push huniform hdirect
  | error stop =>
    cases stop with
    | error err =>
      obtain ⟨hsame, hlost⟩ := Store.push_refused hdirect
      rw [hsame]
      exact Store.atLeast_of_lost hlost
    | crash c => exact absurd rfl (hpushed c)

structure Learned (m : Uplink) (d d' : Device) : Prop where
  key : d'.key = d.key
  owed : d'.adr.requestOwed = (d.adr.requestOwed || m.mac.any (·.adrAckReq))
  dataRate : ∃ dataRate, d'.adr.dataRate = some dataRate ∧ dataRate ≠ ""
  band : ∃ band, d'.adr.band = some band ∧ (band = "" ↔ d.adr.band = some "")
  placed : d.adr.Placed → d'.adr.Placed

theorem Heard.learned (h : e.Heard medium m d r) (hinforms : m.Informs)
    (hok : r.result = .ok ()) : Learned m d r.device := by
  obtain ⟨mac, hm, hadr⟩ := hinforms.mac
  obtain ⟨metadata, plan, b, hmetadata, hrate, hplan, hb, hsupported⟩ := hinforms.metadata
  obtain ⟨metadata', pushed, haccept, -, -, hdevice⟩ := h.recorded_of_ok hm hadr hok
  cases hmetadata.symm.trans (accept_eq_ok_iff.1 haccept).1
  have hblank : plan ≠ "" := Band.ne_blank_of_ofName hb
  have hnames : metadata.frequencyPlan.filter (fun plan ↦ (Band.ofName plan).isOk) =
      some plan := by
    simp [hplan, Option.filter, hb, Except.isOk, Except.toBool]
  have hlearned : (d.heard mac metadata).adr.band = (d.adr.band <|> some plan) := by
    rw [← hnames]
    rfl
  rw [hdevice]
  refine ⟨rfl, by rw [hm]; rfl, ⟨_, rfl, hrate⟩, ?_, ?_⟩
  · rw [hlearned]
    cases d.adr.band with
    | none => exact ⟨plan, rfl, by simpa using hblank⟩
    | some band => exact ⟨band, rfl, by simp⟩
  · intro hplaced band hband
    rw [hlearned] at hband
    cases hold : d.adr.band with
    | none =>
      rw [hold] at hband
      cases hband
      exact .inr ⟨b, hb, hsupported⟩
    | some band' =>
      rw [hold] at hband
      cases hband
      exact hplaced band hold

end Uplinks

section Downlinks

variable (medium : Medium) {m : Downlink} {dataRate band : String}

theorem judge_settles (hvalid : e.config.Valid) {b : Band} (hb : Band.ofName band = .ok b)
    (hsupported : b.plan.linkAdrSupported = true) (frames : List Frame) (adr : AdrState) :
    (∃ err, e.judge frames adr dataRate band = .error (.error err)) ∨
      ∃ v, e.judge frames adr dataRate band = .ok v ∧ v.settles := by
  have hcrash := judge_ne_crash hvalid frames adr dataRate band
  have hj := e.judged frames adr dataRate band
  generalize e.judge frames adr dataRate band = v at hj hcrash ⊢
  cases hj with
  | unknownBand | unlisted | unordered => exact .inl ⟨_, rfl⟩
  | unsupported hb' hunsupported =>
    cases hb.symm.trans hb'
    rw [hsupported] at hunsupported
    cases hunsupported
  | @undecided _ _ stop =>
    cases stop with
    | error err => exact .inl ⟨err, rfl⟩
    | crash c => exact absurd rfl (hcrash c)
  | settled | ordered => exact .inr ⟨_, rfl, rfl⟩

theorem settled_of_assess {v : Verdict} (h : e.assess medium m d = .ok v) (hv : v.settles) :
    (∃ err, (e.downlink medium m d).result = .error (.error err)) ∨
      (e.downlink medium m d).result = .ok () ∧
        (e.downlink medium m d).device.adr.requestOwed = false := by
  unfold downlink
  rw [h]
  cases v with
  | nothingOwed | tooFewFrames | linkUnknown | unsupported => cases hv
  | settled => exact .inr ⟨rfl, rfl⟩
  | order =>
    dsimp only
    split
    · next hclear =>
      obtain ⟨-, err, rfl⟩ := clear_error hclear
      exact .inl ⟨_, rfl⟩
    · exact .inr ⟨rfl, rfl⟩

/-- Nothing is missing for a decision: what is owed is settled or the downlink is refused, unless
the band is recorded but blank. -/
theorem downlink_settles (hvalid : e.config.Valid) (howed : d.adr.requestOwed = true)
    (hmac : m.mac ≠ none) (hmany : e.store.AtLeast d.key e.config.minHistory.toNat)
    (hrate : d.adr.dataRate = some dataRate) (hne : dataRate ≠ "")
    (hband : d.adr.band = some band) (hplaced : d.adr.Placed) :
    (∃ err, (e.downlink medium m d).result = .error (.error err)) ∨
      (e.downlink medium m d).result = .ok () ∧
        ((e.downlink medium m d).device.adr.requestOwed = true ↔ band = "") := by
  have ha := e.assessed medium m d
  generalize hv : e.assess medium m d = v at ha
  cases ha with
  | nothingOwed hnone =>
    rw [howed] at hnone
    cases hnone
  | malformed _ hm => exact absurd hm hmac
  | unread => exact .inl ⟨_, by rw [downlink, hv]; rfl⟩
  | tooFewFrames _ _ hread hfew =>
    have hlen := hmany _ (get_of_frames hread)
    rcases hfew with rfl | hlt
    · exact absurd (UInt64.toNat.inj (Nat.le_zero.1 hlen)) hvalid.minHistory_ne
    · exact absurd hlen (Nat.not_le.2 hlt)
  | linkUnknown _ _ _ _ hunknown =>
    rw [hrate, hband] at hunknown
    have hblank : band = "" := hunknown.resolve_left hne
    rw [downlink, hv]
    exact .inr ⟨rfl, fun _ ↦ hblank, fun _ ↦ howed⟩
  | @judged _ frames dataRate' _ _ _ _ _ _ _ hband' hknown =>
    cases hband.symm.trans hband'
    obtain ⟨b, hb, hsupported⟩ := (hplaced band hband).resolve_left hknown
    rcases judge_settles hvalid hb hsupported frames d.adr with ⟨err, herr⟩ | ⟨v, hok, hsettles⟩
    · exact .inl ⟨err, by rw [downlink, hv, herr]; rfl⟩
    · have hcases := settled_of_assess medium (hv.trans hok) hsettles
      refine hcases.imp_right fun ⟨hresult, hsettled⟩ ↦ ?_
      exact ⟨hresult, by simp [hsettled, hknown]⟩

end Downlinks

end Engine

end AdaptiveRate
