import AdaptiveRate.Engine.Uplink
import AdaptiveRate.Proofs.Band

theorem UInt8.max_one (n : UInt8) : max n 1 = if n < 1 then 1 else n := by
  have hdef : max n 1 = if n ≤ 1 then 1 else n := rfl
  rw [hdef]
  by_cases hle : n ≤ 1
  · by_cases hlt : n < 1
    · rw [if_pos hle, if_pos hlt]
    · rw [if_pos hle, if_neg hlt, UInt8.le_antisymm hle (UInt8.not_lt.1 hlt)]
  · rw [if_neg hle, if_neg fun hlt ↦ hle (UInt8.le_of_lt hlt)]

namespace AdaptiveRate

def Device.heard (d : Device) (mac : Uplink.Mac) (metadata : Uplink.Metadata) : Device :=
  { d with adr := { d.adr with
      dataRate := some metadata.dataRate
      band := d.adr.band <|> metadata.frequencyPlan.filter fun plan ↦ (Band.ofName plan).isOk
      transmissions := max d.adr.transmissions 1
      requestOwed := d.adr.requestOwed || mac.adrAckReq } }

namespace Device

variable (d : Device)

theorem noteBand_fst (plan : Option String) : (d.noteBand plan).1 = { d with adr := { d.adr with
    band := d.adr.band <|> plan.filter fun plan ↦ (Band.ofName plan).isOk } } := by
  obtain ⟨appId, devId, dataRate, band, power, transmissions, owed, margin⟩ := d
  cases band with
  | some band => cases plan <;> rfl
  | none =>
    cases plan with
    | none => rfl
    | some plan =>
      simp only [noteBand]
      cases hn : Band.ofName plan with
      | error err => simp [Option.filter, hn, Except.isOk, Except.toBool]
      | ok b => simp [Option.filter, hn, Except.isOk, Except.toBool, Band.name_of_ofName hn]

theorem atLeastOneTransmission_eq : d.atLeastOneTransmission =
    { d with adr := { d.adr with transmissions := max d.adr.transmissions 1 } } := by
  obtain ⟨appId, devId, dataRate, band, power, transmissions, owed, margin⟩ := d
  rw [UInt8.max_one, atLeastOneTransmission]
  split <;> rfl

end Device

theorem Uplink.acknowledge_eq (m : Uplink) (ask : Bool) : (if ask then m.acknowledge else m) =
    { m with response := m.response.map fun a ↦
      ⟨a.mac.map fun a ↦ { a with ack := a.ack || ask }⟩ } := by
  cases ask with
  | false => simp
  | true => simp [Uplink.acknowledge]

namespace Engine

variable (m : Uplink) (mac : Uplink.Mac) (metadata : Uplink.Metadata) (d : Device)

variable {m mac metadata} in
theorem accept_eq_ok_iff : accept m mac = .ok metadata ↔
    m.metadata = some metadata ∧ (mac.adrAckReq = true → m.hasResponseMac = true) := by
  unfold accept
  cases hm : m.metadata with
  | none => simp
  | some metadata' =>
    cases hack : mac.adrAckReq with
    | false => simp
    | true => cases hmac : m.hasResponseMac <;> simp

theorem note_message :
    (note m mac metadata d).1 = if mac.adrAckReq then m.acknowledge else m := by
  simp only [note]
  split <;> rfl

theorem note_device : (note m mac metadata d).2.1 = d.heard mac metadata := by
  simp only [note, Device.noteBand_fst, Device.atLeastOneTransmission_eq]
  cases hack : mac.adrAckReq with
  | false => simp [Device.heard, Device.noteDataRate, hack]
  | true => simp [Device.heard, Device.noteDataRate, Device.oweRequest, hack]

end Engine

end AdaptiveRate
