import AdaptiveRate.Proofs.Config
import AdaptiveRate.Proofs.Network
import AdaptiveRate.Proofs.Record

namespace AdaptiveRate

open AdaptiveRate.History

namespace Moment

variable {ι : Type} [DecidableEq ι] (x : Moment ι) {i : ι}

theorem sound_next
    (h : (x.network.devices i).adr.Sound x.network.engine.config.maxTransmissions) :
    (x.next.devices i).adr.Sound x.network.engine.config.maxTransmissions := by
  rcases x.becomes_or_same i with ⟨rfl, hbecomes⟩ | hsame
  · generalize x.next.devices x.event.device = d at hbecomes
    cases hbecomes with
    | same => exact h
    | heard => exact h.heard _ _
    | settled => exact h.settle
    | told hdue => exact h.follow hdue
  · rw [hsame]
    exact h

theorem band_next {band : String} (h : (x.network.devices i).adr.band = some band) :
    (x.next.devices i).adr.band = some band := by
  rcases x.becomes_or_same i with ⟨rfl, hbecomes⟩ | hsame
  · generalize x.next.devices x.event.device = d at hbecomes
    cases hbecomes with
    | same | settled | told => exact h
    | heard =>
      have hband : x.record.adr.band = some band := h
      simp [Device.heard, hband]
  · rw [hsame]
    exact h

end Moment

namespace Network

variable {ι : Type} [DecidableEq ι] {n : Network ι} {i : ι}

theorem sound_after (h : (n.devices i).adr.Sound n.engine.config.maxTransmissions)
    (events : List (Event ι)) :
    ((n.after events).devices i).adr.Sound n.engine.config.maxTransmissions := by
  rw [← n.config_after events]
  refine after_induction (P := fun n' ↦
    (n'.devices i).adr.Sound n'.engine.config.maxTransmissions) (fun x hx ↦ ?_) h events
  rw [x.config_next]
  exact x.sound_next hx

theorem band_after {band : String} (h : (n.devices i).adr.band = some band)
    (events : List (Event ι)) : ((n.after events).devices i).adr.band = some band :=
  after_induction (P := fun n' ↦ (n'.devices i).adr.band = some band)
    (fun x hx ↦ x.band_next hx) h events

/-- The record of a device that was new once is well formed after every run, names the band that it
has come to name, and is never why a downlink is refused. -/
theorem record_sound (n : Network ι) (i : ι) (hvalid : n.engine.config.validate = .ok ())
    (hnew : (n.devices i).adr = {}) (events : List (Event ι)) :
    ((n.after events).devices i).adr.Sound n.engine.config.maxTransmissions ∧
    (∀ band, ((n.after events).devices i).adr.band = some band →
      ∀ more, (((n.after events).after more).devices i).adr.band = some band) ∧
    ∀ medium m err, ((n.after events).step ⟨i, medium, .downlink m⟩).2.result =
      .error (.error err) → err.blamesLink = false := by
  have hmax : 1 ≤ n.engine.config.maxTransmissions :=
    (Config.validate_eq_ok_iff.1 hvalid).transmissions_pos
  have hsound : (n.devices i).adr.Sound n.engine.config.maxTransmissions := by
    rw [hnew]
    exact .fresh hmax
  have hafter := sound_after hsound events
  refine ⟨hafter, fun band hband more ↦ band_after hband more, ?_⟩
  intro medium m err herr
  exact Engine.blameless_of_downlink hafter herr

theorem record_sound_lone :
    ((lone.after [⟨(), {}, .uplink (slowUplink true)⟩, ⟨(), {}, .downlink {}⟩]).devices
      ()).adr.Sound 3 ∧
    ((lone.after [⟨(), {}, .uplink (slowUplink true)⟩, ⟨(), {}, .downlink {}⟩]).devices
      ()).adr.band = some "EU_863_870" ∧
    ∃ err, ((lone.after [⟨(), {}, .uplink (slowUplink true)⟩]).step
      ⟨(), { get := .silent }, .downlink {}⟩).2.result = .error (.error err) ∧
        err.blamesLink = false := by
  have hvalid : lone.engine.config.validate = .ok () := by decide +kernel
  have hfirst := lone.record_sound () hvalid rfl [⟨(), {}, .uplink (slowUplink true)⟩]
  have hboth := lone.record_sound () hvalid rfl
    [⟨(), {}, .uplink (slowUplink true)⟩, ⟨(), {}, .downlink {}⟩]
  refine ⟨hboth.1, by decide +kernel, .store (.timedOut (.ofMillis 500)), ?_, ?_⟩
  · rfl
  · exact hfirst.2.2 { get := .silent } {} _ rfl

end Network

end AdaptiveRate
