import AdaptiveRate.Engine
import AdaptiveRate.Mac.LinkRequest

namespace AdaptiveRate

open AdaptiveRate.History

/-- A request ready to be sent, with the data rate and the power that it stands for. -/
structure Order where
  decision : Decision
  request : Mac.LinkRequest
  dataRate : String
  power : Int8
  deriving DecidableEq

inductive Verdict
  | nothingOwed
  | tooFewFrames (count : Nat)
  | linkUnknown
  | unsupported (band : Band)
  | settled (decision : Decision)
  | order (o : Order)
  deriving DecidableEq

namespace ChannelPlan

variable (p : ChannelPlan)

def settings (adr : AdrState) (dataRate : String) : Except Error Settings := do
  let rate ← p.dataRateIndex dataRate
  let power ← match adr.txPower with
    | some dbm => p.txPowerIndex dbm
    | none => .ok p.defaultTxPower
  return ⟨rate, power, adr.transmissions⟩

def order (decision : Decision) : Except Error Order := do
  let target := decision.target
  let request ←
    Mac.LinkRequest.make target.dataRate target.txPower p.defaultMask 0 target.transmissions
  match p.dataRateByIndex target.dataRate, p.txPowerDbm target.txPower with
  | none, _ => .error (.invalidDataRate p.band.name ("DR" ++ toString target.dataRate))
  | _, none => .error (.outOfRange "TXPower" target.txPower p.minTxPowerIndex)
  | some rate, some power => return ⟨decision, request, rate.name, power⟩

end ChannelPlan

def Downlink.append (m : Downlink) (c : Mac.Command) : Downlink :=
  ⟨m.mac.map fun mac ↦ { mac with options := mac.options ++ [c] }⟩

namespace Device

def settle (d : Device) : Device := { d with adr := { d.adr with requestOwed := false } }

def follow (d : Device) (o : Order) : Device :=
  { d with adr := { d.adr with
      dataRate := some o.dataRate
      txPower := some o.power
      transmissions := o.decision.target.transmissions
      requestOwed := false } }

end Device

namespace Engine

def judge (e : Engine) (frames : List Frame) (adr : AdrState) (dataRate band : String) :
    Except Stop Verdict :=
  match Band.ofName band with
  | .error err => .error (.error err)
  | .ok b =>
    if !b.plan.linkAdrSupported then .ok (.unsupported b)
    else match b.plan.settings adr dataRate with
      | .error err => .error (.error err)
      | .ok current =>
        match decide frames b.plan current (adr.margin.getD e.config.defaultMargin) e.config with
        | .error stop => .error stop
        | .ok decision =>
          if !decision.isChange then .ok (.settled decision)
          else match b.plan.order decision with
            | .error err => .error (.error err)
            | .ok o => .ok (.order o)

def assess (e : Engine) (medium : Medium) (m : Downlink) (d : Device) : Except Stop Verdict :=
  if !d.adr.requestOwed then .ok .nothingOwed
  else if m.mac.isNone then .error (.error (.malformedDownlink "missing MAC payload"))
  else match e.frames medium d.key with
    | .error err => .error (.error (.store err))
    | .ok frames =>
      if frames.isEmpty || frames.length < e.config.minHistory.toNat then
        .ok (.tooFewFrames frames.length)
      else match d.adr.dataRate, d.adr.band with
        | some dataRate, some band =>
          if dataRate = "" || band = "" then .ok .linkUnknown
          else e.judge frames d.adr dataRate band
        | _, _ => .ok .linkUnknown

def evidence (decision : Decision) : String :=
  "max SNR " ++ decision.maxSnr.plain ++ " dB, loss " ++ toString decision.loss ++ "%)"

/-- All that can go wrong is checked before the history is cleared, and nothing changes until it
is. -/
def downlink (e : Engine) (medium : Medium) (m : Downlink) (d : Device) : Reply Downlink :=
  match e.assess medium m d with
  | .error stop => e.unchanged m d (.error stop) []
  | .ok .nothingOwed => e.unchanged m d (.ok ()) []
  | .ok (.tooFewFrames count) => e.unchanged m d (.ok ())
    [.debug ("ADR: " ++ d.key.text ++ " has " ++ toString count ++ " frames, waiting for " ++
      toString e.config.minHistory)]
  | .ok .linkUnknown => e.unchanged m d (.ok ())
    [.debug ("ADR: " ++ d.key.text ++ " has no data rate or band yet")]
  | .ok (.unsupported band) => e.unchanged m d (.ok ())
    [.debug ("ADR: " ++ d.key.text ++ " is on " ++ band.name ++
      ", channel plan needs more than one LinkADRReq")]
  | .ok (.settled decision) => e.unchanged m d.settle (.ok ())
    [.debug ("ADR: " ++ d.key.text ++ " already at " ++ decision.current.text ++ " (" ++
      evidence decision)]
  | .ok (.order o) =>
    match e.clear medium d.key with
    | (.error stop, store) => ⟨.error stop, m, d, store, []⟩
    | (.ok (), store) => ⟨.ok (), m.append o.request.toCommand, d.follow o, store,
      [.info ("ADR: LinkADRReq for " ++ d.key.text ++ ": " ++ o.decision.current.text ++ " -> " ++
        o.decision.target.text ++ " (" ++ o.dataRate ++ ", " ++ toString o.power ++ " dBm; " ++
        evidence o.decision)]⟩

end Engine

end AdaptiveRate
