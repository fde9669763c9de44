import AdaptiveRate.Frame

namespace AdaptiveRate.Window

open AdaptiveRate.Number

def maxOf (ratios : List Single) : Single :=
  match ratios with
  | [] => .zero false
  | x :: xs => xs.foldl Binary.max x

def maxSnr (frames : List Frame) : Single := maxOf (frames.map (·.snr))

def span (frames : List Frame) : Option (UInt32 × UInt32) :=
  (frames.map (·.counter)).foldl
    (fun acc n ↦ match acc with
      | none => some (n, n)
      | some (lo, hi) => some (min lo n, max hi n))
    none

/-- Percentage of a count that is missing, computed in double precision, halves going up. -/
def percentage (missing expected : Nat) : UInt8 :=
  .ofNat ((Binary.ofNat missing / Binary.ofNat expected * Binary.ofNat 100 : Double).roundNat 255)

/-- Loss over the counters from the least to the greatest. Repeated frames hide lost ones. -/
def lossPercentage (frames : List Frame) : UInt8 :=
  match span frames with
  | none => 0
  | some (lo, hi) =>
    let expected := (hi - lo).toNat + 1
    percentage (expected - frames.length) expected

end AdaptiveRate.Window
