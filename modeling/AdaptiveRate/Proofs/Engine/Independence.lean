import AdaptiveRate.Proofs.Engine.Effect
import AdaptiveRate.Proofs.History.Room

namespace AdaptiveRate

open AdaptiveRate.History

namespace Engine

variable {e : Engine} {medium : Medium} {m : Uplink} {mac : Uplink.Mac}
  {metadata : Uplink.Metadata} {d : Device} {r : Reply Uplink}

def leaves (m : Uplink) (d : Device) : Uplink × Device :=
  match m.mac with
  | none => (m, d)
  | some mac =>
    if mac.adr then
      match accept m mac with
      | .error _ => (m, d)
      | .ok metadata => (if mac.adrAckReq then m.acknowledge else m, d.heard mac metadata)
    else (m, d)

theorem Heard.leaves_eq (h : e.Heard medium m d r) (hr : ∀ c, r.result ≠ .error (.crash c)) :
    (r.message, r.device) = leaves m d := by
  unfold leaves
  cases h with
  | refused hon =>
    cases hm : m.mac with
    | none => rfl
    | some mac =>
      obtain ⟨hadr, herr⟩ := hon mac hm
      simp [hadr, herr, unchanged]
  | switchedOff hm hadr => simp [hm, hadr]
  | crashed => exact absurd rfl (hr _)
  | recorded hm hadr haccept => simp [hm, hadr, haccept]

theorem Heard.unchanged_of_error (h : e.Heard medium m d r) {err : Error}
    (herr : r.result = .error (.error err)) :
    r.message = m ∧ r.device = d ∧ r.store = e.store := by
  cases h with
  | refused => exact ⟨rfl, rfl, rfl⟩
  | switchedOff _ _ hclear =>
    obtain rfl := herr
    exact ⟨rfl, rfl, (clear_error hclear).1⟩
  | crashed | recorded => cases herr

theorem Heard.of_adr_off (h : e.Heard medium m d r) (hm : m.mac = some mac)
    (hadr : mac.adr = false) : r.message = m ∧ r.device = d ∧
      (r.store = e.store ∨
        r.store.get d.key = .ok [] ∧ ∀ k, k ≠ d.key → r.store.get k = e.store.get k) := by
  cases h with
  | refused hon =>
    rw [(hon mac hm).1] at hadr
    cases hadr
  | @switchedOff _ result store log _ _ hclear =>
    refine ⟨rfl, rfl, ?_⟩
    cases result with
    | error stop => exact .inl (clear_error hclear).1
    | ok => exact .inr (clear_ok hclear)
  | crashed hm' hadr' | recorded hm' hadr' =>
    cases hm.symm.trans hm'
    rw [hadr] at hadr'
    cases hadr'

/-- What an accepted uplink does, be its frame stored or not. -/
structure Noted (e : Engine) (medium : Medium) (m : Uplink) (mac : Uplink.Mac) (d : Device)
    (r : Reply Uplink) : Prop where
  result : r.result = .ok ()
  message : r.message = { m with response := m.response.map fun a ↦
    ⟨a.mac.map fun a ↦ { a with ack := a.ack || mac.adrAckReq }⟩ }
  acknowledged : mac.adrAckReq = true → ∃ a, r.message.response = some ⟨some a⟩ ∧ a.ack = true
  key : r.device.key = d.key
  owed : r.device.adr.requestOwed = (d.adr.requestOwed || mac.adrAckReq)
  txPower : r.device.adr.txPower = d.adr.txPower
  margin : r.device.adr.margin = d.adr.margin
  stored : (e.push medium d.key (m.frame mac)).1 = .ok () → ∃ frames,
    e.store.get d.key = .ok frames ∧
      r.store.get d.key = .ok (extend (e.store.room d.key) frames (m.frame mac))
  not_stored : (e.push medium d.key (m.frame mac)).1 ≠ .ok () → r.store = e.store
  others : ∀ k, k ≠ d.key → r.store.get k = e.store.get k

theorem exists_ack_of_hasResponseMac (h : m.hasResponseMac = true) :
    ∃ a, m.acknowledge.response = some ⟨some a⟩ ∧ a.ack = true := by
  unfold Uplink.hasResponseMac at h
  obtain ⟨a, ha⟩ := Option.isSome_iff_exists.1 h
  obtain ⟨⟨_⟩, hresponse, rfl⟩ := Option.bind_eq_some_iff.1 ha
  exact ⟨{ a with ack := true }, by simp [Uplink.acknowledge, hresponse], rfl⟩

theorem Heard.noted (h : e.Heard medium m d r) (hr : ∀ c, r.result ≠ .error (.crash c))
    (hm : m.mac = some mac) (hadr : mac.adr = true) (haccept : accept m mac = .ok metadata) :
    e.Noted medium m mac d r := by
  cases h with
  | refused hon =>
    rw [(hon mac hm).2] at haccept
    cases haccept
  | switchedOff hm' hadr' =>
    cases hm.symm.trans hm'
    rw [hadr] at hadr'
    cases hadr'
  | crashed => exact absurd rfl (hr _)
  | @recorded _ _ pushed store log hm' _ _ hpush hpushed =>
    cases hm.symm.trans hm'
    have hanswered : mac.adrAckReq = true → m.hasResponseMac = true :=
      (accept_eq_ok_iff.1 haccept).2
    have hstore := push_cases hpush hpushed
    constructor
    case result | key | owed | txPower | margin => rfl
    case message => exact m.acknowledge_eq mac.adrAckReq
    case acknowledged =>
      intro hask
      rw [if_pos hask]
      exact exists_ack_of_hasResponseMac (hanswered hask)
    case stored =>
      intro hok
      rw [hpush] at hok
      rcases hstore with ⟨-, hkept⟩ | ⟨hne, -⟩
      · exact Store.get_push hkept
      · exact absurd hok hne
    case not_stored =>
      intro hne
      rw [hpush] at hne
      rcases hstore with ⟨hok, -⟩ | ⟨-, hsame⟩
      · exact absurd hok hne
      · exact hsame
    case others =>
      intro k hk
      rcases hstore with ⟨-, hkept⟩ | ⟨-, rfl⟩
      · exact (Store.push_ok hkept).2 k hk
      · rfl

/-- The same uplink over two stores that behave in any way makes the same of its device and its
answer. -/
theorem uplink_independent (e e' : Engine) (medium medium' : Medium) (m : Uplink) (d : Device)
    (h : ∀ c, (e.uplink medium m d).result ≠ .error (.crash c))
    (h' : ∀ c, (e'.uplink medium' m d).result ≠ .error (.crash c)) :
    ((e.uplink medium m d).device = (e'.uplink medium' m d).device ∧
      (e.uplink medium m d).message = (e'.uplink medium' m d).message) ∧
    (∀ err, (e.uplink medium m d).result = .error (.error err) →
      (e.uplink medium m d).message = m ∧ (e.uplink medium m d).device = d ∧
        (e.uplink medium m d).store = e.store) ∧
    (∀ mac, m.mac = some mac → mac.adr = false →
      (e.uplink medium m d).message = m ∧ (e.uplink medium m d).device = d ∧
        ((e.uplink medium m d).store = e.store ∨
          (e.uplink medium m d).store.get d.key = .ok [] ∧
            ∀ k, k ≠ d.key → (e.uplink medium m d).store.get k = e.store.get k)) ∧
    ∀ mac metadata, m.mac = some mac → mac.adr = true → m.metadata = some metadata →
      (mac.adrAckReq = true → m.hasResponseMac = true) →
        e.Noted medium m mac d (e.uplink medium m d) := by
  have hheard := e.heard medium m d
  have hleft := hheard.leaves_eq h
  have hright := (e'.heard medium' m d).leaves_eq h'
  obtain ⟨hmessage, hdevice⟩ := Prod.mk.inj (hleft.trans hright.symm)
  refine ⟨⟨hdevice, hmessage⟩, ?_, ?_, ?_⟩
  · intro err herr
    exact hheard.unchanged_of_error herr
  · intro mac hm hoff
    exact hheard.of_adr_off hm hoff
  · intro mac metadata hm hon hmetadata hanswered
    exact hheard.noted h hm hon (accept_eq_ok_iff.2 ⟨hmetadata, hanswered⟩)

def nextUplink : Uplink :=
  { Uplink.make 8 "SF7BW125" with mac := some ⟨8, true, true⟩ }

theorem uplink_independent_silent :
    (heardWell.uplink { push := .silent } nextUplink slowDevice).device =
      (heardWell.uplink {} nextUplink slowDevice).device ∧
    (heardWell.uplink { push := .silent } nextUplink slowDevice).store = heardWell.store ∧
    (heardWell.uplink {} nextUplink slowDevice).store.get ⟨"app", "dev"⟩ =
      .ok [⟨7, .ofNat 10, 1⟩, ⟨8, .zero false, 0⟩] := by
  have hsilent : ∀ c, (heardWell.uplink { push := .silent } nextUplink slowDevice).result ≠
      .error (.crash c) := by
    intro c hc
    cases hc
  have hprompt : ∀ c, (heardWell.uplink {} nextUplink slowDevice).result ≠
      .error (.crash c) := by
    intro c hc
    cases hc
  obtain ⟨⟨hdevice, -⟩, -, -, hlost⟩ :=
    uplink_independent _ heardWell _ {} nextUplink slowDevice hsilent hprompt
  obtain ⟨-, -, -, hkept⟩ :=
    uplink_independent _ heardWell _ { push := .silent } nextUplink slowDevice hprompt hsilent
  refine ⟨hdevice, ?_, ?_⟩
  · exact (hlost _ _ rfl rfl rfl fun _ ↦ rfl).not_stored fun hok ↦ by cases hok
  · obtain ⟨frames, hget, hstored⟩ := (hkept _ _ rfl rfl rfl fun _ ↦ rfl).stored rfl
    cases hget
    exact hstored

end Engine

end AdaptiveRate
