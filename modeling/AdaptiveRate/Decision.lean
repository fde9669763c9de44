import AdaptiveRate.Band
import AdaptiveRate.Config
import AdaptiveRate.Window

namespace AdaptiveRate

open AdaptiveRate.Number

/-- Settings of a link, as indices of the channel plan. -/
structure Settings where
  dataRate : UInt8
  txPower : UInt8
  transmissions : UInt8
  deriving DecidableEq

def Settings.text (s : Settings) : String :=
  "DR" ++ toString s.dataRate ++ " TXPower" ++ toString s.txPower ++ " NbTrans" ++
    toString s.transmissions

instance : ToString Settings := ⟨Settings.text⟩

structure Decision where
  current : Settings
  target : Settings
  maxSnr : Single
  linkMargin : Single
  steps : Nat
  loss : UInt8
  deriving DecidableEq

def Decision.isChange (d : Decision) : Bool := d.current != d.target

/-- The number of transmissions that answers a percentage of loss, between one and `max`. With a
maximum of zero there is no such number, and one more than 255 is out of reach. -/
def LossThresholds.transmissions (t : LossThresholds) (max current loss : UInt8) :
    Except Crash UInt8 :=
  if max < 1 then .error .emptyRange
  else
    let n := if current < 1 then 1 else if max < current then max else current
    if loss < t.reduceBelow then .ok (if n ≤ 1 then 1 else n - 1)
    else if loss < t.keepBelow then .ok n
    else if loss < t.increaseBelow then
      if n = 255 then .error .overflow else .ok (min (n + 1) max)
    else .ok max

namespace ChannelPlan

variable (p : ChannelPlan)

def nextDataRate (rate : UInt8) : Option UInt8 :=
  ((p.dataRates.map (·.index)).find? (rate < ·)).filter (· ≤ p.maxAdrDataRate)

/-- Spends steps on faster data rates; gives the steps left over and the data rate reached. -/
def raiseDataRate : Nat → UInt8 → Nat × UInt8
  | 0, rate => (0, rate)
  | n + 1, rate =>
    match p.nextDataRate rate with
    | some next => raiseDataRate n next
    | none => (n + 1, rate)

def lowerPower : Nat → UInt8 → UInt8
  | 0, power => power
  | n + 1, power => if power < p.minTxPowerIndex then lowerPower n (power + 1) else power

/-- Steps that fit into a link margin, at most as many as 32 bits count. -/
def stepsIn (margin : Single) : Nat :=
  if (Binary.zero false).lt margin then (margin / p.step).floorNat (UInt32.size - 1) else 0

end ChannelPlan

/-- Faster data rates come first and only the rest of the margin lowers the power. -/
def decide (frames : List Frame) (p : ChannelPlan) (current : Settings) (margin : Single)
    (config : Config) : Except Stop Decision :=
  match p.dataRateByIndex current.dataRate with
  | none => .error (.error (.invalidDataRate p.band.name ("DR" ++ toString current.dataRate)))
  | some rate =>
    let snr := Window.maxSnr frames
    let linkMargin := snr - rate.requiredSnr - margin
    let steps := p.stepsIn linkMargin
    let (left, dataRate) := p.raiseDataRate steps current.dataRate
    let loss := Window.lossPercentage frames
    match config.thresholds.transmissions config.maxTransmissions current.transmissions loss with
    | .error c => .error (.crash c)
    | .ok transmissions => .ok
      { current
        target := ⟨dataRate, p.lowerPower left current.txPower, transmissions⟩
        maxSnr := snr
        linkMargin
        steps
        loss }

end AdaptiveRate
