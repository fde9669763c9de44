import AdaptiveRate.Proofs.Calls
import AdaptiveRate.Proofs.Engine.Effect

namespace AdaptiveRate

open AdaptiveRate.History
open Function

/-- The records are kept by index, and two of them may have the same key. -/
structure Network (ι : Type) where
  service : Service
  devices : ι → Device

structure Event (ι : Type) where
  device : ι
  medium : Medium
  message : Message

namespace Network

variable {ι : Type}

def start (capacity : Nat) (config : Config) (keys : ι → DeviceKey) : Network ι :=
  ⟨.start (.ofCapacity capacity config), fun i ↦ ⟨(keys i).appId, (keys i).devId, {}⟩⟩

def engine (n : Network ι) : Engine := n.service.engine

variable [DecidableEq ι]

def step (n : Network ι) (e : Event ι) : Network ι × Answer :=
  let (service, answer) := n.service.serve e.medium ⟨e.message, n.devices e.device⟩
  (⟨service, update n.devices e.device answer.device⟩, answer)

def after (n : Network ι) (events : List (Event ι)) : Network ι :=
  (Machine.run step n events).1

end Network

structure Moment (ι : Type) where
  network : Network ι
  event : Event ι

def Network.moments {ι : Type} [DecidableEq ι] (n : Network ι) : List (Event ι) → List (Moment ι)
  | [] => []
  | e :: rest => ⟨n, e⟩ :: moments (n.step e).1 rest

namespace Moment

variable {ι : Type}

def record (x : Moment ι) : Device := x.network.devices x.event.device

def key (x : Moment ι) : DeviceKey := x.record.key

/-- The device of this key tells that its data rate is under the control of the network, or that it
is not. -/
def Announces (adr : Bool) (key : DeviceKey) (x : Moment ι) : Prop :=
  x.key = key ∧ ∃ m mac, x.event.message = .uplink m ∧ m.mac = some mac ∧ mac.adr = adr

def stores (x : Moment ι) : Bool :=
  match x.event.message with
  | .uplink m => m.mac.any fun mac ↦ mac.adr && (Engine.accept m mac).isOk &&
      (x.network.engine.push x.event.medium x.key (m.frame mac)).1.isOk
  | .downlink _ => false

def storesUnder (key : DeviceKey) (x : Moment ι) : Bool := x.key = key && x.stores

theorem storesUnder_iff {x : Moment ι} {key : DeviceKey} :
    x.storesUnder key = true ↔ x.key = key ∧ x.stores = true := by simp [storesUnder]

variable [DecidableEq ι]

def next (x : Moment ι) : Network ι := (x.network.step x.event).1

def answer (x : Moment ι) : Answer := (x.network.step x.event).2

/-- How many commands are sent with the message that it did not come with. -/
def sent (x : Moment ι) : Nat := x.event.message.added x.answer.message

def emits (x : Moment ι) : Bool := 0 < x.sent

def sentTo (i : ι) : List (Moment ι) → Nat
  | [] => 0
  | x :: rest => (if x.event.device = i then x.sent else 0) + sentTo i rest

/-- An uplink under the control of the network is accepted that asks for a sign of life. -/
def asks (x : Moment ι) : Bool :=
  match x.event.message with
  | .uplink m => m.mac.any (fun mac ↦ mac.adr && mac.adrAckReq) && x.answer.result.isOk
  | .downlink _ => false

def emitsTo (i : ι) (x : Moment ι) : Bool := x.event.device = i && x.emits

def asksFor (i : ι) (x : Moment ι) : Bool := x.event.device = i && x.asks

def emitsUnder (key : DeviceKey) (x : Moment ι) : Bool := x.key = key && x.emits

theorem emitsTo_iff {x : Moment ι} {i : ι} :
    x.emitsTo i = true ↔ x.event.device = i ∧ x.emits = true := by simp [emitsTo]

theorem asksFor_iff {x : Moment ι} {i : ι} :
    x.asksFor i = true ↔ x.event.device = i ∧ x.asks = true := by simp [asksFor]

theorem emitsUnder_iff {x : Moment ι} {key : DeviceKey} :
    x.emitsUnder key = true ↔ x.key = key ∧ x.emits = true := by simp [emitsUnder]

inductive Effect (x : Moment ι) : Network ι → Answer → Prop
  | heard {m : Uplink} {r : Reply Uplink} {service : Service} :
      x.event.message = .uplink m → x.network.engine.Heard x.event.medium m x.record r →
      service.engine = { x.network.engine with store := r.store } →
      Effect x ⟨service, update x.network.devices x.event.device r.device⟩ (r.answer .uplink)
  | answered {m : Downlink} {r : Reply Downlink} {service : Service} :
      x.event.message = .downlink m → x.network.engine.Answered x.event.medium m x.record r →
      service.engine = { x.network.engine with store := r.store } →
      Effect x ⟨service, update x.network.devices x.event.device r.device⟩ (r.answer .downlink)

theorem effect (x : Moment ι) : x.Effect x.next x.answer := by
  obtain ⟨n, i, medium, message⟩ := x
  cases message with
  | uplink m => exact .heard rfl (n.engine.heard medium m (n.devices i)) rfl
  | downlink m => exact .answered rfl (n.engine.answered medium m (n.devices i)) rfl

theorem devices_next_of_ne (x : Moment ι) {i : ι} (h : i ≠ x.event.device) :
    x.next.devices i = x.network.devices i := by
  have heffect := x.effect
  generalize x.next = n, x.answer = a at heffect
  cases heffect with
  | heard | answered => exact update_of_ne h _ _

inductive Becomes (x : Moment ι) : Device → Prop
  | same : Becomes x x.record
  | heard {m : Uplink} {mac : Uplink.Mac} {metadata : Uplink.Metadata} :
      x.event.message = .uplink m → m.mac = some mac → mac.adr = true →
      x.answer.result = .ok () → Becomes x (x.record.heard mac metadata)
  | settled : Becomes x x.record.settle
  | told {m : Downlink} {frames : List Frame} {dataRate band : String} {b : Band} {o : Order} :
      x.network.engine.Due x.event.medium m x.record frames dataRate band b o →
      Becomes x (x.record.follow o)

theorem becomes (x : Moment ι) : x.Becomes (x.next.devices x.event.device) := by
  have h := x.effect
  generalize hn : x.next = n, ha : x.answer = a at h
  cases h with
  | heard hm hr =>
    dsimp only
    rw [update_self]
    cases hr with
    | refused | switchedOff | crashed => exact .same
    | recorded hmac hadr => exact .heard hm hmac hadr (by rw [ha]; rfl)
  | answered hm hr =>
    dsimp only
    rw [update_self]
    cases hr with
    | kept => exact .same
    | settled => exact .settled
    | emitted hdue => exact .told hdue

theorem becomes_or_same (x : Moment ι) (i : ι) :
    i = x.event.device ∧ x.Becomes (x.next.devices i) ∨
      x.next.devices i = x.network.devices i := by
  by_cases hi : i = x.event.device
  · subst hi
    exact .inl ⟨rfl, x.becomes⟩
  · exact .inr (x.devices_next_of_ne hi)

theorem config_next (x : Moment ι) : x.next.engine.config = x.network.engine.config := by
  have h := x.effect
  generalize x.next = n, x.answer = a at h
  cases h with
  | heard _ _ hengine | answered _ _ hengine => rw [Network.engine, hengine]

end Moment

namespace Network

variable {ι : Type} [DecidableEq ι] {n : Network ι} {events past rest : List (Event ι)}

@[simp]
theorem after_nil (n : Network ι) : n.after [] = n := rfl

@[simp]
theorem after_cons (n : Network ι) (e : Event ι) (events : List (Event ι)) :
    n.after (e :: events) = (n.step e).1.after events := rfl

theorem moments_eq_append_cons {past rest : List (Moment ι)} {x : Moment ι}
    (h : n.moments events = past ++ x :: rest) :
    ∃ before behind, past = n.moments before ∧ x.network = n.after before ∧
      rest = x.next.moments behind := by
  induction past generalizing n events with
  | nil =>
    cases events with
    | nil => cases h
    | cons e events =>
      cases h
      exact ⟨[], events, rfl, rfl, rfl⟩
  | cons y past ih =>
    cases events with
    | nil => cases h
    | cons e events =>
      obtain ⟨rfl, htail⟩ := List.cons.inj h
      obtain ⟨before, behind, rfl, hx, hrest⟩ := ih htail
      exact ⟨e :: before, behind, rfl, hx, hrest⟩

theorem exists_between {past between rest : List (Moment ι)} {x y : Moment ι}
    (h : n.moments events = past ++ x :: (between ++ y :: rest)) :
    ∃ before middle, x.network = n.after before ∧ between = x.next.moments middle ∧
      y.network = x.next.after middle := by
  obtain ⟨before, behind, -, hx, hrest⟩ := moments_eq_append_cons h
  obtain ⟨middle, -, hmiddle, hy, -⟩ := moments_eq_append_cons hrest.symm
  exact ⟨before, middle, hx, hmiddle, hy⟩

theorem after_induction {P : Network ι → Prop}
    (hstep : ∀ x : Moment ι, P x.network → P x.next) (hn : P n) (events : List (Event ι)) :
    P (n.after events) := by
  induction events generalizing n with
  | nil => exact hn
  | cons e events ih => exact ih (hstep ⟨n, e⟩ hn)

theorem config_after (n : Network ι) (events : List (Event ι)) :
    (n.after events).engine.config = n.engine.config :=
  after_induction (P := fun n' ↦ n'.engine.config = n.engine.config)
    (fun x h ↦ x.config_next.trans h) rfl events

def lone : Network Unit := start 4 { minHistory := 1 } fun _ ↦ ⟨"app", "dev"⟩

def slowUplink (adr : Bool) : Uplink where
  mac := some ⟨7, adr, true⟩
  metadata := some ⟨"SF8BW125", some "EU_863_870"⟩
  receptions := [⟨"gateway", .ofNat 10, .ofRatio (-80) 1⟩]
  response := some {}

end Network

end AdaptiveRate
