import AdaptiveRate.Proofs.Calls
import AdaptiveRate.Proofs.Config
import AdaptiveRate.Proofs.Engine.Downlink
import AdaptiveRate.Proofs.Engine.Uplink
import AdaptiveRate.Proofs.History.Store

namespace AdaptiveRate

open AdaptiveRate.History
open Function

/-- All frames recorded under each key since its history was last given up. -/
structure Ledger where
  past : DeviceKey → List Frame

namespace Ledger

def empty : Ledger := ⟨fun _ ↦ []⟩

def add (l : Ledger) (key : DeviceKey) (frame : Frame) : Ledger :=
  ⟨update l.past key (l.past key ++ [frame])⟩

def forget (l : Ledger) (key : DeviceKey) : Ledger := ⟨update l.past key []⟩

variable (config : Config) (l : Ledger)

section Past

variable {key k : DeviceKey} {n : Nat}

theorem past_add_of_ne (frame : Frame) (h : key ≠ k) : (l.add k frame).past key = l.past key :=
  update_of_ne h _ _

theorem past_forget_of_ne (h : key ≠ k) : (l.forget k).past key = l.past key :=
  update_of_ne h _ _

variable {l}

theorem length_add_le (h : ∀ key, (l.past key).length ≤ n) (k : DeviceKey) (frame : Frame)
    (key : DeviceKey) : ((l.add k frame).past key).length ≤ n + 1 := by
  by_cases hkey : key = k
  · subst hkey
    simpa [add] using h key
  · rw [past_add_of_ne l frame hkey]
    exact (h key).trans n.le_succ

theorem length_forget_le (h : ∀ key, (l.past key).length ≤ n) (k key : DeviceKey) :
    ((l.forget k).past key).length ≤ n + 1 := by
  by_cases hkey : key = k
  · subst hkey
    simp [forget]
  · rw [past_forget_of_ne l hkey]
    exact (h key).trans n.le_succ

end Past

def latest (key : DeviceKey) : List Frame := (l.past key).rtake config.historyCapacity.toNat

/-- The answer to an uplink, which does not depend on the frames before it. -/
def hear (m : Uplink) (d : Device) : Answer :=
  match m.mac with
  | none => ⟨.error (.error (.malformedUplink "missing MAC payload")), .uplink m, d⟩
  | some mac =>
    if !mac.adr then ⟨.ok (), .uplink m, d⟩
    else match m.metadata with
      | none => ⟨.error (.error (.malformedUplink "missing LoRaWAN metadata")), .uplink m, d⟩
      | some metadata =>
        if mac.adrAckReq && !(m.response.bind (·.mac)).isSome then
          ⟨.error (.error (.malformedUplink "ADRAckReq without response MAC payload")),
            .uplink m, d⟩
        else
          ⟨.ok (), .uplink { m with response := m.response.map fun a ↦
            ⟨a.mac.map fun a ↦ { a with ack := a.ack || mac.adrAckReq }⟩ }, d.heard mac metadata⟩

theorem hear_of_error {m : Uplink} {mac : Uplink.Mac} {err : Error} (d : Device)
    (hm : m.mac = some mac) (hadr : mac.adr = true) (h : Engine.accept m mac = .error err) :
    hear m d = ⟨.error (.error err), .uplink m, d⟩ := by
  unfold Engine.accept Uplink.hasResponseMac at h
  unfold hear
  rw [hm]
  cases hmetadata : m.metadata with
  | none =>
    simp only [hmetadata] at h
    cases h
    simp [hadr]
  | some metadata =>
    simp only [hmetadata] at h
    split at h
    · next hmissing =>
      cases h
      simp only [hadr, hmissing, Bool.not_true, Bool.false_eq_true, if_false, if_true]
    · cases h

theorem hear_of_ok {m : Uplink} {mac : Uplink.Mac} {metadata : Uplink.Metadata} (d : Device)
    (hm : m.mac = some mac) (hadr : mac.adr = true) (h : Engine.accept m mac = .ok metadata) :
    hear m d = ⟨.ok (), .uplink (if mac.adrAckReq then m.acknowledge else m),
      d.heard mac metadata⟩ := by
  obtain ⟨hmetadata, hanswered⟩ := Engine.accept_eq_ok_iff.1 h
  have hpresent : (mac.adrAckReq && !(m.response.bind (·.mac)).isSome) = false := by
    rw [Bool.and_eq_false_imp]
    intro hask
    rw [Bool.not_eq_false']
    exact hanswered hask
  rw [m.acknowledge_eq]
  unfold hear
  rw [hm]
  simp only [hadr, hmetadata, hpresent, Bool.not_true, Bool.false_eq_true, if_false]

def assess (m : Downlink) (d : Device) : Except Stop Verdict :=
  if !d.adr.requestOwed then .ok .nothingOwed
  else if m.mac.isNone then .error (.error (.malformedDownlink "missing MAC payload"))
  else if (l.latest config d.key).length < config.minHistory.toNat then
    .ok (.tooFewFrames (l.latest config d.key).length)
  else match d.adr.dataRate, d.adr.band with
    | some dataRate, some band =>
      if dataRate = "" || band = "" then .ok .linkUnknown
      else (Engine.inMemory config).judge (l.latest config d.key) d.adr dataRate band
    | _, _ => .ok .linkUnknown

/-- The answer to a downlink, with everything written out that it may change. -/
def downlink (m : Downlink) (d : Device) : Answer :=
  match l.assess config m d with
  | .error stop => ⟨.error stop, .downlink m, d⟩
  | .ok (.settled _) =>
    ⟨.ok (), .downlink m, { d with adr := { d.adr with requestOwed := false } }⟩
  | .ok (.order o) =>
    ⟨.ok (), .downlink ⟨m.mac.map fun mac ↦
        { mac with options := mac.options ++ [o.request.toCommand] }⟩,
      { d with adr := { d.adr with
          dataRate := some o.dataRate
          txPower := some o.power
          transmissions := o.decision.target.transmissions
          requestOwed := false } }⟩
  | .ok _ => ⟨.ok (), .downlink m, d⟩

def answer (c : Call) : Answer :=
  match c.message with
  | .uplink m => hear m c.device
  | .downlink m => l.downlink config m c.device

/-- What is remembered of a call, told from the call and its answer: an accepted frame is added, and
all frames go with an uplink out of the control of the network or with a command that is sent. -/
def note (c : Call) (a : Answer) : Ledger :=
  match c.message with
  | .uplink m =>
    match m.mac with
    | none => l
    | some mac =>
      if !mac.adr then l.forget c.device.key
      else if a.result.isOk then
        l.add c.device.key ⟨mac.counter, m.bestSnr, .ofNat m.receptions.length⟩
      else l
  | .downlink _ => if 0 < c.message.added a.message then l.forget c.device.key else l

def serve (c : Call) : Ledger × Answer := (l.note c (l.answer config c), l.answer config c)

theorem note_past {key : DeviceKey} (c : Call) (a : Answer) (h : key ≠ c.device.key) :
    (l.note c a).past key = l.past key := by
  unfold note
  split
  · split
    · rfl
    · split
      · exact l.past_forget_of_ne h
      · split
        · exact l.past_add_of_ne _ h
        · rfl
  · split
    · exact l.past_forget_of_ne h
    · rfl

end Ledger

namespace Engine

structure Tracks (e : Engine) (config : Config) (l : Ledger) (n : Nat) : Prop where
  config_eq : e.config = config
  valid : config.Valid
  affordable : Store.Affordable config.historyCapacity.toNat
  capacity_eq : e.store.capacity = config.historyCapacity.toNat
  keeps : e.store.Keeps l.past
  length_le : ∀ key, (l.past key).length ≤ n

variable {e : Engine} {config : Config} {l : Ledger} {n : Nat}

theorem Tracks.get (h : e.Tracks config l n) (key : DeviceKey) :
    e.store.get key = .ok (l.latest config key) := by
  have hpos : config.historyCapacity.toNat ≠ 0 :=
    fun h0 ↦ h.valid.capacity_ne (UInt64.toNat.inj h0)
  have hmax : max e.store.capacity 1 = config.historyCapacity.toNat := by
    rw [h.capacity_eq]
    exact Nat.max_eq_left (Nat.pos_of_ne_zero hpos)
  rw [h.keeps.get key, hmax]
  rfl

theorem Tracks.succ (h : e.Tracks config l n) : e.Tracks config l (n + 1) :=
  { h with length_le := fun key ↦ (h.length_le key).trans n.le_succ }

theorem Tracks.push (h : e.Tracks config l n) (hn : n < UInt64.size) (key : DeviceKey)
    (frame : Frame) : ∃ store, e.push {} key frame = (.ok (), store) ∧
      Tracks { e with store } config (l.add key frame) (n + 1) := by
  obtain ⟨store, hpush, hcap, hkeeps⟩ := h.keeps.push (h.capacity_eq ▸ h.affordable) key frame
    ((h.length_le key).trans_lt hn)
  exact ⟨store, hpush, h.config_eq, h.valid, h.affordable, hcap.trans h.capacity_eq, hkeeps,
    Ledger.length_add_le h.length_le key frame⟩

theorem Tracks.clear (h : e.Tracks config l n) (key : DeviceKey) :
    ∃ store, e.clear {} key = (.ok (), store) ∧
      Tracks { e with store } config (l.forget key) (n + 1) := by
  obtain ⟨store, hclear, hcap, hkeeps⟩ := h.keeps.clear key
  refine ⟨store, ?_, h.config_eq, h.valid, h.affordable, hcap.trans h.capacity_eq, hkeeps,
    Ledger.length_forget_le h.length_le key⟩
  simp only [Engine.clear, Condition.within, hclear]

theorem Tracks.uplink (h : e.Tracks config l n) (hn : n < UInt64.size) (m : Uplink) (d : Device) :
    (e.uplink {} m d).answer .uplink = Ledger.hear m d ∧
      Tracks { e with store := (e.uplink {} m d).store } config
        (l.note ⟨.uplink m, d⟩ (Ledger.hear m d)) (n + 1) := by
  unfold Engine.uplink Ledger.note
  cases hm : m.mac with
  | none =>
    simp only [hm, Ledger.hear]
    exact ⟨rfl, h.succ⟩
  | some mac =>
    cases hadr : mac.adr with
    | false =>
      obtain ⟨store, hclear, hnext⟩ := h.clear d.key
      simp only [hm, hadr, hclear, Ledger.hear, Bool.not_false, if_true]
      exact ⟨rfl, hnext⟩
    | true =>
      simp only [hm, hadr, Bool.not_true, Bool.false_eq_true, if_false]
      cases haccept : accept m mac with
      | error err =>
        rw [Ledger.hear_of_error d hm hadr haccept]
        exact ⟨rfl, h.succ⟩
      | ok metadata =>
        obtain ⟨store, hpush, hnext⟩ := h.push hn d.key (m.frame mac)
        rw [Ledger.hear_of_ok d hm hadr haccept]
        simp only [record, hpush, Reply.answer, note_message, note_device, true_and]
        exact hnext

theorem judge_congr {e' : Engine} (h : e.config = e'.config) : e.judge = e'.judge := by
  funext frames adr dataRate band
  simp only [judge, h]

theorem Tracks.assess (h : e.Tracks config l n) (m : Downlink) (d : Device) :
    e.assess {} m d = l.assess config m d := by
  have hframes : e.frames {} d.key = .ok (l.latest config d.key) := h.get d.key
  have hfew : l.latest config d.key = [] ∨
      (l.latest config d.key).length < e.config.minHistory.toNat ↔
        (l.latest config d.key).length < config.minHistory.toNat := by
    rw [h.config_eq]
    constructor
    · rintro (hnil | hlt)
      · rw [hnil]
        exact h.valid.minHistory_pos
      · exact hlt
    · exact .inr
  have hjudge : e.judge = (inMemory config).judge := judge_congr h.config_eq
  unfold Engine.assess Ledger.assess
  cases d.adr.dataRate with
  | none => simp only [hframes, Bool.or_eq_true, List.isEmpty_iff, decide_eq_true_eq, hfew]
  | some dataRate =>
    cases d.adr.band with
    | none => simp only [hframes, Bool.or_eq_true, List.isEmpty_iff, decide_eq_true_eq, hfew]
    | some band =>
      simp only [hframes, Bool.or_eq_true, List.isEmpty_iff, decide_eq_true_eq, hfew, hjudge]

theorem Tracks.mac_of_assess (h : e.Tracks config l n) {m : Downlink} {d : Device} {o : Order}
    (ho : l.assess config m d = .ok (.order o)) : ∃ mac, m.mac = some mac := by
  rw [← h.assess] at ho
  obtain ⟨frames, dataRate, band, b, hdue⟩ := e.due_of_assess {} m d ho
  exact hdue.mac

theorem Tracks.downlink (h : e.Tracks config l n) (m : Downlink) (d : Device) :
    (e.downlink {} m d).answer .downlink = l.downlink config m d ∧
      Tracks { e with store := (e.downlink {} m d).store } config
        (l.note ⟨.downlink m, d⟩ (l.downlink config m d)) (n + 1) := by
  unfold Engine.downlink Ledger.downlink Ledger.note
  rw [h.assess]
  cases ha : l.assess config m d with
  | error stop =>
    dsimp only
    rw [Message.added_self, if_neg (Nat.lt_irrefl 0)]
    exact ⟨rfl, h.succ⟩
  | ok v =>
    cases v with
    | nothingOwed | tooFewFrames | linkUnknown | unsupported | settled =>
      dsimp only
      rw [Message.added_self, if_neg (Nat.lt_irrefl 0)]
      exact ⟨rfl, h.succ⟩
    | order o =>
      obtain ⟨store, hclear, hnext⟩ := h.clear d.key
      obtain ⟨mac, hm⟩ := h.mac_of_assess ha
      simp only [hclear]
      refine ⟨rfl, ?_⟩
      -- Only a frame with a payload is ordered a command, so the answer has one more than came in.
      rw [if_pos (by simp [Message.added, Message.options, Downlink.options, hm])]
      exact hnext

end Engine

namespace Service

variable {config : Config} {calls : List Call}

theorem serve_tracks {s : Service} {l : Ledger} {n : Nat} (c : Call) (hn : n < UInt64.size)
    (h : s.engine.Tracks config l n) : (s.serve {} c).2 = (l.serve config c).2 ∧
      (s.serve {} c).1.engine.Tracks config (l.serve config c).1 (n + 1) := by
  obtain ⟨message, d⟩ := c
  cases message with
  | uplink m => exact h.uplink hn m d
  | downlink m => exact h.downlink m d

theorem start_tracks (hvalid : config.Valid)
    (haffordable : Store.Affordable config.historyCapacity.toNat) :
    (start (.inMemory config)).engine.Tracks config .empty 0 where
  config_eq := rfl
  valid := hvalid
  affordable := haffordable
  capacity_eq := rfl
  keeps := Store.keeps_empty _
  length_le := fun _ ↦ le_rfl

def after (config : Config) (calls : List Call) : Service × List Answer :=
  Machine.run (serve {}) (.start (.inMemory config)) calls

def ledger (config : Config) (calls : List Call) : Ledger × List Answer :=
  Machine.run (Ledger.serve config) .empty calls

theorem after_tracks (hvalid : config.Valid)
    (haffordable : Store.Affordable config.historyCapacity.toNat)
    (hcalls : calls.length ≤ UInt64.size) :
    (after config calls).2 = (ledger config calls).2 ∧
      (after config calls).1.engine.Tracks config (ledger config calls).1 calls.length := by
  have hrun := Machine.run_simulates (R := fun n (s : Service) l ↦ s.engine.Tracks config l n)
    (fun n s l c hn h ↦ serve_tracks c hn h) calls (n := 0) (by omega)
    (start_tracks hvalid haffordable)
  rw [Nat.zero_add] at hrun
  exact hrun

/-- No frame is lost before it has to be, none is kept that should be gone, and calls for other
keys do not come into it. -/
theorem answers_eq_ledger (hvalid : config.validate = .ok ())
    (hroom : config.historyCapacity.toNat * 12 ≤ 2 ^ 63 - 1) (hcalls : calls.length < 2 ^ 64) :
    (after config calls).2 = (ledger config calls).2 ∧
      (∀ key, (after config calls).1.engine.store.get key =
        .ok (((ledger config calls).1.past key).rtake config.historyCapacity.toNat)) ∧
      ∀ c key, key ≠ c.device.key →
        ((after config calls).1.serve {} c).1.engine.store.get key =
          (after config calls).1.engine.store.get key := by
  have hv := Config.validate_eq_ok_iff.1 hvalid
  have haffordable : Store.Affordable config.historyCapacity.toNat := by
    simp only [Store.Affordable, Ring.frameBytes, Ring.maxBytes, UInt64.size]
    omega
  obtain ⟨hanswers, htracks⟩ := after_tracks hv haffordable hcalls.le
  refine ⟨hanswers, htracks.get, ?_⟩
  intro c key hkey
  obtain ⟨-, hnext⟩ := serve_tracks c hcalls htracks
  rw [hnext.get, htracks.get, Ledger.latest, Ledger.latest, Ledger.serve,
    Ledger.note_past _ c _ hkey]

def slowCall (devId : String) (counter : UInt32) (adr ask : Bool) : Call where
  message := .uplink {
    mac := some ⟨counter, adr, ask⟩
    metadata := some ⟨"SF8BW125", some "EU_863_870"⟩
    receptions := [⟨"gateway", .ofNat 10, .zero false⟩]
    response := some {} }
  device := { appId := "app", devId }

/-- Two devices in turn: the first is sent a request between its uplinks, the second takes its data
rate back. -/
def mixedCalls : List Call :=
  [slowCall "dev" 1 true false, slowCall "dev" 2 true false, slowCall "dev" 3 true true,
    slowCall "other" 9 true false,
    ⟨.downlink { mac := some ⟨true, [⟨0x06, []⟩]⟩ }, Engine.slowDevice⟩,
    slowCall "dev" 4 true false, slowCall "other" 10 false false]

def narrow : Config := { minHistory := 2, historyCapacity := 2 }

/-- The request rests on the two frames before it that are kept, and takes them along; what the
other device does to its history is of no matter. -/
theorem answers_of_mixed_calls :
    (after narrow (mixedCalls.take 4)).1.engine.store.get ⟨"app", "dev"⟩ =
      .ok [⟨2, .ofNat 10, 1⟩, ⟨3, .ofNat 10, 1⟩] ∧
    (after narrow (mixedCalls.take 4)).2.map (·.device.adr.requestOwed) =
      [false, false, true, false] ∧
    (after narrow mixedCalls).2[4]?.map (fun a ↦ (a.result, a.message, a.device)) =
      some (.ok (),
        .downlink { mac := some ⟨true, [⟨0x06, []⟩, ⟨0x03, [0x51, 0xFF, 0x00, 0x01]⟩]⟩ },
        { appId := "app", devId := "dev", adr := {
            dataRate := some "SF7BW125", band := some "EU_863_870", txPower := some 14 } }) ∧
    (after narrow (mixedCalls.take 5)).1.engine.store.get ⟨"app", "dev"⟩ = .ok [] ∧
    (after narrow (mixedCalls.take 5)).1.engine.store.get ⟨"app", "other"⟩ =
      .ok [⟨9, .ofNat 10, 1⟩] ∧
    (after narrow mixedCalls).1.engine.store.get ⟨"app", "dev"⟩ = .ok [⟨4, .ofNat 10, 1⟩] ∧
    (after narrow mixedCalls).1.engine.store.get ⟨"app", "other"⟩ = .ok [] := by
  have hvalid : narrow.validate = .ok () := by
    rw [Config.validate_eq_ok_iff]
    constructor <;> decide +kernel
  have hroom : narrow.historyCapacity.toNat * 12 ≤ 2 ^ 63 - 1 := by decide
  have hfour : (mixedCalls.take 4).length < 2 ^ 64 := by decide
  have hfive : (mixedCalls.take 5).length < 2 ^ 64 := by decide
  have hall : mixedCalls.length < 2 ^ 64 := by decide
  obtain ⟨hearly, hheard, -⟩ := answers_eq_ledger hvalid hroom hfour
  obtain ⟨-, hsent, -⟩ := answers_eq_ledger hvalid hroom hfive
  obtain ⟨hanswers, hlast, -⟩ := answers_eq_ledger hvalid hroom hall
  rw [hearly, hheard, hanswers, hsent, hsent, hlast, hlast]
  decide +kernel

end Service

end AdaptiveRate
