import AdaptiveRate.Band

namespace AdaptiveRate

open AdaptiveRate.Number

/-- Lowest ratio of signal to noise at which a spreading factor is received, in decibels. -/
def demodulationFloor : Nat → Single
  | 7 => .ofRatio (-15) 2
  | 8 => .ofRatio (-10) 1
  | 9 => .ofRatio (-25) 2
  | 10 => .ofRatio (-15) 1
  | 11 => .ofRatio (-35) 2
  | _ => .ofRatio (-20) 1

def lora (index : UInt8) (name : String) (spreadingFactor bandwidth : Nat) : DataRate :=
  ⟨index, name, spreadingFactor, bandwidth, demodulationFloor spreadingFactor⟩

namespace ChannelPlan

def spreadingRates : List DataRate :=
  [lora 0 "SF12BW125" 12 125, lora 1 "SF11BW125" 11 125, lora 2 "SF10BW125" 10 125,
    lora 3 "SF9BW125" 9 125, lora 4 "SF8BW125" 8 125, lora 5 "SF7BW125" 7 125]

def europeanRates : List DataRate := spreadingRates ++ [lora 6 "SF7BW250" 7 250]

def americanRates : List DataRate :=
  [lora 0 "SF10BW125" 10 125, lora 1 "SF9BW125" 9 125, lora 2 "SF8BW125" 8 125,
    lora 3 "SF7BW125" 7 125, lora 4 "SF8BW500" 8 500]

def lowPowers : List Int8 := [10, 7, 4, 1, -2, -5]

def highPowers : List Int8 := [30, 28, 26, 24, 22, 20, 18, 16, 14, 12, 10]

def firstEight : List UInt8 := [0, 1, 2, 3, 4, 5, 6, 7]

def firstThree : List UInt8 := [0, 1, 2]

def stepDb : Single := .ofNat 3

end ChannelPlan

open ChannelPlan

def Band.plan (b : Band) : ChannelPlan :=
  match b with
  | .eu863 => ⟨b, europeanRates, 5, [20, 14, 11, 8, 5, 2], 1, 9, firstEight, stepDb, true⟩
  | .us902 => ⟨b, americanRates, 3, highPowers, 5, 72, firstEight, stepDb, false⟩
  | .cn779 => ⟨b, europeanRates, 5, lowPowers, 0, 16, firstThree, stepDb, true⟩
  | .eu433 => ⟨b, europeanRates, 5, lowPowers, 0, 16, firstThree, stepDb, true⟩
  | .au915 => ⟨b, americanRates, 3, highPowers, 5, 72, firstEight, stepDb, false⟩
  | .cn470 =>
    ⟨b, spreadingRates, 5, [17, 16, 14, 12, 10, 7, 5, 2], 0, 96, firstEight, stepDb, false⟩
  | .as923 => ⟨b, europeanRates, 5, [14, 12, 10, 8, 6, 4], 0, 16, firstEight, stepDb, true⟩
  | .kr920 => ⟨b, spreadingRates, 5, [20, 14, 10, 8, 5, 2, 0], 1, 16, firstEight, stepDb, true⟩
  | .in865 => ⟨b, spreadingRates, 5, highPowers, 0, 16, firstThree, stepDb, true⟩

end AdaptiveRate
