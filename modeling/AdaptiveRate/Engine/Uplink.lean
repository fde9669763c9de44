import AdaptiveRate.Engine

namespace AdaptiveRate

open AdaptiveRate.History

namespace Device

/-- A band is taken from the first frequency plan that names one. -/
def noteBand (d : Device) (plan : Option String) : Device × List LogRecord :=
  match d.adr.band, plan with
  | none, some plan =>
    match Band.ofName plan with
    | .ok band => ({ d with adr := { d.adr with band := some band.name } }, [])
    | .error err => (d, [.warn ("ADR: " ++ d.key.text ++ " reported " ++ err.message)])
  | _, _ => (d, [])

def noteDataRate (d : Device) (rate : String) : Device :=
  { d with adr := { d.adr with dataRate := some rate } }

def atLeastOneTransmission (d : Device) : Device :=
  if d.adr.transmissions < 1 then { d with adr := { d.adr with transmissions := 1 } } else d

def oweRequest (d : Device) : Device := { d with adr := { d.adr with requestOwed := true } }

end Device

namespace Engine

def accept (m : Uplink) (mac : Uplink.Mac) : Except Error Uplink.Metadata :=
  match m.metadata with
  | none => .error (.malformedUplink "missing LoRaWAN metadata")
  | some metadata =>
    if mac.adrAckReq && !m.hasResponseMac then
      .error (.malformedUplink "ADRAckReq without response MAC payload")
    else .ok metadata

def note (m : Uplink) (mac : Uplink.Mac) (metadata : Uplink.Metadata) (d : Device) :
    Uplink × Device × List LogRecord :=
  let (d, log) := (d.noteDataRate metadata.dataRate).noteBand metadata.frequencyPlan
  let d := d.atLeastOneTransmission
  if mac.adrAckReq then
    (m.acknowledge, d.oweRequest,
      log ++ [.debug ("ADR: " ++ d.key.text ++ " sent ADRAckReq, LinkADRReq scheduled")])
  else (m, d, log)

/-- A frame that cannot be stored is logged and otherwise passed over. -/
def record (e : Engine) (medium : Medium) (m : Uplink) (mac : Uplink.Mac)
    (metadata : Uplink.Metadata) (d : Device) : Reply Uplink :=
  match e.push medium d.key (m.frame mac) with
  | (.error (.crash c), store) => ⟨.error (.crash c), m, d, store, []⟩
  | (.error (.error err), store) =>
    let (m, d, log) := note m mac metadata d
    ⟨.ok (), m, d, store,
      .error ("ADR: could not push frame " ++ toString mac.counter ++ " for " ++ d.key.text ++
        ": " ++ err.message) :: log⟩
  | (.ok (), store) =>
    let (m, d, log) := note m mac metadata d
    ⟨.ok (), m, d, store, log⟩

def uplink (e : Engine) (medium : Medium) (m : Uplink) (d : Device) : Reply Uplink :=
  match m.mac with
  | none => e.unchanged m d (.error (.error (.malformedUplink "missing MAC payload"))) []
  | some mac =>
    if !mac.adr then
      let (result, store) := e.clear medium d.key
      ⟨result, m, d, store,
        [.debug ("ADR: disabled by " ++ d.key.text ++ ", clearing history")]⟩
    else match accept m mac with
      | .error err => e.unchanged m d (.error (.error err)) []
      | .ok metadata => e.record medium m mac metadata d

end Engine

end AdaptiveRate
