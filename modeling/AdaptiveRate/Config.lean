import AdaptiveRate.Error
import AdaptiveRate.Json.Record

namespace AdaptiveRate

open AdaptiveRate.Number

/-- Percentages of loss: below the first there is one transmission fewer, below the second no
change, below the third one more, and from there on the maximum. -/
structure LossThresholds where
  reduceBelow : UInt8 := 5
  keepBelow : UInt8 := 15
  increaseBelow : UInt8 := 25
  deriving DecidableEq

structure Config where
  /-- Decibels kept in reserve for a device without a margin of its own. -/
  defaultMargin : Single := .ofNat 15
  minHistory : UInt64 := 20
  historyCapacity : UInt64 := 32
  thresholds : LossThresholds := {}
  maxTransmissions : UInt8 := 3
  storeTimeoutMs : UInt64 := 500
  deriving DecidableEq

namespace Config

def storeTimeout (c : Config) : Duration := .ofMillis c.storeTimeoutMs.toNat

inductive Defect
  | margin (got : Single)
  | noCapacity
  | minHistory (capacity got : UInt64)
  | thresholds (got : LossThresholds)
  | maxTransmissions (got : UInt8)
  | noTimeout
  deriving DecidableEq

def Defect.message : Defect → String
  | .margin got => "default_margin_db must be a non-negative number, got " ++ got.plain
  | .noCapacity => "history_capacity must be at least 1"
  | .minHistory capacity got =>
    "min_history must be in 1..=" ++ toString capacity ++ ", got " ++ toString got
  | .thresholds got =>
    "loss thresholds must be ordered within 0..=100, got " ++ toString got.reduceBelow ++ "/" ++
      toString got.keepBelow ++ "/" ++ toString got.increaseBelow
  | .maxTransmissions got => "max_nb_trans must be in 1..=15, got " ++ toString got
  | .noTimeout => "store_timeout_ms must be positive"

def Defect.toError (d : Defect) : Error := .config d.message

def validate (c : Config) : Except Defect Unit :=
  let t := c.thresholds
  if !c.defaultMargin.isFinite || c.defaultMargin.lt (.zero false) then
    .error (.margin c.defaultMargin)
  else if c.historyCapacity = 0 then .error .noCapacity
  else if c.minHistory = 0 || c.historyCapacity < c.minHistory then
    .error (.minHistory c.historyCapacity c.minHistory)
  else if !(t.reduceBelow ≤ t.keepBelow && t.keepBelow ≤ t.increaseBelow &&
      t.increaseBelow ≤ 100) then .error (.thresholds t)
  else if c.maxTransmissions < 1 || 15 < c.maxTransmissions then
    .error (.maxTransmissions c.maxTransmissions)
  else if c.storeTimeoutMs = 0 then .error .noTimeout
  else .ok ()

end Config

end AdaptiveRate
