import AdaptiveRate.Engine.Downlink
import AdaptiveRate.Engine.Uplink

namespace AdaptiveRate

open AdaptiveRate.Number

structure Simulation where
  band : String := "EU_863_870"
  dataRate : String := "SF12BW125"
  snr : Single := .ofNat 5
  frames : UInt32 := 20
  lost : List UInt32 := []
  transmissions : UInt8 := 1
  deriving DecidableEq

namespace Simulation

def uplink (s : Simulation) (counter : UInt32) (last : Bool) : Uplink :=
  { Uplink.make counter s.dataRate with
    mac := some ⟨counter, true, last⟩
    receptions := [⟨"sim", s.snr, .ofRatio (-100) 1⟩] }

def device (s : Simulation) : Device :=
  { appId := "cli"
    devId := "simulated"
    adr := { band := some s.band, transmissions := s.transmissions } }

structure Trial where
  engine : Engine
  device : Device
  sent : Array Uplink
  next : UInt32
  log : List LogRecord

namespace Trial

def advance (t : Trial) : Except Stop Unit × Trial :=
  if t.next.toNat + 1 < UInt32.size then (.ok (), { t with next := t.next + 1 })
  else (.error (.crash .overflow), t)

def conclude (t : Trial) : List LogRecord × Except Stop (Option Mac.Command × Device) :=
  let reply := t.engine.downlink {} {} t.device
  let log := t.log ++ reply.log
  match reply.result with
  | .error (.error err) =>
    (log ++ [.error ("ADR decision failed: " ++ err.message)], .error (.error err))
  | .error (.crash c) => (log, .error (.crash c))
  | .ok () => (log, .ok (reply.message.options.head?, reply.device))

end Trial

def turn (s : Simulation) (t : Trial) : Except Stop Unit × Trial :=
  if s.lost.contains t.next then
    let skipped : Trial :=
      { t with log := t.log ++ [LogRecord.debug ("skipping FCnt " ++ toString t.next)] }
    skipped.advance
  else
    let m := s.uplink t.next (t.sent.size + 1 == s.frames.toNat)
    let reply := t.engine.uplink {} m t.device
    let heard : Trial := { t with
      engine := { t.engine with store := reply.store }
      device := reply.device
      sent := t.sent.push m
      log := t.log ++ reply.log }
    match reply.result with
    | .error stop => (.error stop, heard)
    | .ok () => heard.advance

theorem Trial.next_of_advance {t t' : Trial} (h : t.advance = (.ok (), t')) :
    t'.next.toNat = t.next.toNat + 1 := by
  unfold advance at h
  split at h
  · next hlt =>
    cases h
    exact (UInt32.toNat_add t.next 1).trans (Nat.mod_eq_of_lt hlt)
  · cases h

theorem next_of_turn {s : Simulation} {t t' : Trial} (h : s.turn t = (.ok (), t')) :
    t'.next.toNat = t.next.toNat + 1 := by
  unfold turn at h
  split at h
  · have hnext := Trial.next_of_advance h
    exact hnext
  · dsimp only at h
    split at h
    · cases h
    · have hnext := Trial.next_of_advance h
      exact hnext

def loop (s : Simulation) (t : Trial) : Except Stop Unit × Trial :=
  if t.sent.size < s.frames.toNat then
    match _ : s.turn t with
    | (.ok (), t') => s.loop t'
    | (.error stop, t') => (.error stop, t')
  else (.ok (), t)
termination_by UInt32.size - t.next.toNat
decreasing_by
  have hnext := next_of_turn ‹s.turn t = (.ok (), t')›
  have hlt := t'.next.toNat_lt_size
  omega

def start (s : Simulation) (config : Config) : Trial :=
  let engine := Engine.inMemory config
  let short : List LogRecord :=
    if s.frames < config.minHistory.toUInt32 then
      [.warn (toString s.frames ++ " frames is below the decision threshold of " ++
        toString config.minHistory)]
    else []
  { engine, device := s.device, sent := #[], next := 0, log := short ++ engine.startLog }

def run (s : Simulation) (config : Config) :
    List LogRecord × Except Stop (Option Mac.Command × Device) :=
  match Band.ofName s.band with
  | .error err => ([], .error (.error err))
  | .ok b =>
    match b.plan.dataRate s.dataRate with
    | .error err => ([], .error (.error err))
    | .ok _ =>
      match s.loop (s.start config) with
      | (.error stop, t) => (t.log, .error stop)
      | (.ok (), t) => t.conclude

end Simulation

end AdaptiveRate
