import AdaptiveRate.Proofs.Mac.LinkRequest
import Mathlib.Data.List.Basic

namespace AdaptiveRate.Mac.LinkRequest

theorem forall_byte {P : UInt8 → Prop} (h : ∀ n ∈ List.range 256, P (.ofNat n)) (b : UInt8) : P b :=
  forall_le (m := 255) h (UInt8.le_iff_toNat_le.2 (Nat.le_of_lt_succ b.toNat_lt))

theorem high_le (b : UInt8) : b >>> 4 ≤ nibbleMax :=
  forall_byte (P := fun b ↦ b >>> 4 ≤ nibbleMax) (by decide +kernel) b

theorem pack_nibbles (b : UInt8) :
    (b >>> 4 &&& nibbleMax) <<< 4 ||| b &&& nibbleMax &&& nibbleMax = b :=
  forall_byte (P := fun b ↦ (b >>> 4 &&& nibbleMax) <<< 4 ||| b &&& nibbleMax &&& nibbleMax = b)
    (by decide +kernel) b

theorem pack_redundancy (b : UInt8) :
    (b >>> 4 &&& maskControlMax &&& maskControlMax) <<< 4 ||| b &&& nibbleMax &&& nibbleMax =
      b &&& 0x7F :=
  forall_byte (P := fun b ↦ (b >>> 4 &&& maskControlMax &&& maskControlMax) <<< 4 |||
    b &&& nibbleMax &&& nibbleMax = b &&& 0x7F) (by decide +kernel) b

theorem bytes_ofRaw (low high : UInt8) :
    UInt8.ofNat ((ChannelMask.ofRaw (low.toNat + 256 * high.toNat)).raw % 256) = low ∧
      UInt8.ofNat ((ChannelMask.ofRaw (low.toNat + 256 * high.toNat)).raw / 256) = high := by
  have hlow := low.toNat_lt
  have hhigh := high.toNat_lt
  have hraw : (ChannelMask.ofRaw (low.toNat + 256 * high.toNat)).raw =
      low.toNat + 256 * high.toNat := by
    rw [ChannelMask.raw, ChannelMask.ofRaw, BitVec.toNat_ofNat]
    exact Nat.mod_eq_of_lt (by omega)
  have hmod : (low.toNat + 256 * high.toNat) % 256 = low.toNat := by omega
  have hdiv : (low.toNat + 256 * high.toNat) / 256 = high.toNat := by omega
  rw [hraw, hmod, hdiv, UInt8.ofNat_toNat, UInt8.ofNat_toNat]
  exact ⟨rfl, rfl⟩

variable {bytes : List UInt8} {r : LinkRequest}

theorem ofBytes_eq_error (h : bytes.length ≠ size) :
    ofBytes bytes = .error (.payloadLength size bytes.length) := by
  unfold ofBytes
  split
  · exact absurd rfl h
  · rfl

theorem exists_ofBytes_iff : (∃ r, ofBytes bytes = .ok r) ↔ bytes.length = size := by
  constructor
  · rintro ⟨r, hr⟩
    by_contra h
    rw [ofBytes_eq_error h] at hr
    cases hr
  · intro h
    obtain ⟨rates, low, high, redundancy, rfl⟩ := List.length_eq_four.1 h
    exact ⟨_, rfl⟩

theorem inRange_of_ofBytes (h : ofBytes bytes = .ok r) : r.InRange := by
  unfold ofBytes at h
  split at h
  · next rates low high redundancy =>
    cases h
    exact ⟨high_le rates, UInt8.and_le_right, UInt8.and_le_right, UInt8.and_le_right⟩
  · cases h

theorem toBytes_of_ofBytes (h : ofBytes bytes = .ok r) :
    r.toBytes = bytes.modify 3 (· &&& 0x7F) := by
  unfold ofBytes at h
  split at h
  · next rates low high redundancy =>
    cases h
    obtain ⟨hlow, hhigh⟩ := bytes_ofRaw low high
    rw [toBytes, hlow, hhigh, pack_nibbles, pack_redundancy]
    rfl
  · cases h

theorem ofCommand_eq_ok_iff {c : Command} :
    ofCommand c = .ok r ↔ c.cid = cid ∧ ofBytes c.payload = .ok r := by
  unfold ofCommand
  split
  · next hne => simp [hne]
  · next heq => simp [Classical.not_not.1 heq]

theorem inRange_iff : r.InRange ↔
    r.dataRate ≤ 15 ∧ r.txPower ≤ 15 ∧ r.maskControl ≤ 7 ∧ r.transmissions ≤ 15 :=
  ⟨fun h ↦ ⟨h.dataRate_le, h.txPower_le, h.maskControl_le, h.transmissions_le⟩,
    fun ⟨hrate, hpower, hcontrol, htransmissions⟩ ↦ ⟨hrate, hpower, hcontrol, htransmissions⟩⟩

theorem make_eq_ok_iff_inRange {r' : LinkRequest} :
    make r.dataRate r.txPower r.mask r.maskControl r.transmissions = .ok r' ↔
      r' = r ∧ r.InRange := by
  rw [make_eq_ok_iff]
  constructor
  · rintro ⟨rfl, hrange⟩
    exact ⟨rfl, hrange⟩
  · rintro ⟨rfl, hrange⟩
    exact ⟨rfl, hrange⟩

/-- A payload that can be read is written again but for one bit, and a request that can be made is
read again as it is; any other is read with each field cut to its bits. -/
theorem wire_form (c : Command) (r : LinkRequest) :
    ((∃ r, ofBytes c.payload = .ok r) ↔ c.payload.length = 4) ∧
    (c.payload.length ≠ 4 → ofBytes c.payload = .error (.payloadLength 4 c.payload.length)) ∧
    ((∃ r, ofCommand c = .ok r) ↔ c.payload.length = 4 ∧ c.cid = 0x03) ∧
    (∀ r, ofBytes c.payload = .ok r ∨ ofCommand c = .ok r →
      make r.dataRate r.txPower r.mask r.maskControl r.transmissions = .ok r ∧
      r.toBytes = c.payload.modify 3 (· &&& 0x7F)) ∧
    (∀ r', make r.dataRate r.txPower r.mask r.maskControl r.transmissions = .ok r' ↔ r' = r ∧
      r.dataRate ≤ 15 ∧ r.txPower ≤ 15 ∧ r.maskControl ≤ 7 ∧ r.transmissions ≤ 15) ∧
    (make r.dataRate r.txPower r.mask r.maskControl r.transmissions = .ok r →
      ofCommand r.toCommand = .ok r) ∧
    ofCommand r.toCommand = .ok ⟨r.dataRate &&& 0x0F, r.txPower &&& 0x0F, r.mask,
      r.maskControl &&& 0x07, r.transmissions &&& 0x0F⟩ := by
  refine ⟨exists_ofBytes_iff, ofBytes_eq_error, ?_, ?_, ?_, ?_, ofCommand_toCommand r⟩
  · simp only [ofCommand_eq_ok_iff, exists_and_left, exists_ofBytes_iff]
    exact And.comm
  · intro r h
    have hr : ofBytes c.payload = .ok r := h.elim id fun hc ↦ (ofCommand_eq_ok_iff.1 hc).2
    exact ⟨make_eq_ok_iff_inRange.2 ⟨rfl, inRange_of_ofBytes hr⟩, toBytes_of_ofBytes hr⟩
  · intro r'
    rw [make_eq_ok_iff_inRange, inRange_iff]
  · intro h
    obtain ⟨-, hrange⟩ := make_eq_ok_iff_inRange.1 h
    rw [ofCommand_toCommand, hrange.truncate_eq]

theorem wire_form_reserved : ∃ r, ofBytes [0x23, 0x07, 0x80, 0xE3] = .ok r ∧
    r.toBytes = [0x23, 0x07, 0x80, 0x63] := by
  obtain ⟨hread, -, -, hwrite, -⟩ := wire_form ⟨0x03, [0x23, 0x07, 0x80, 0xE3]⟩
    ⟨2, 3, .ofRaw 0x8007, 6, 3⟩
  obtain ⟨r, hr⟩ := hread.2 rfl
  exact ⟨r, hr, (hwrite r (.inl hr)).2⟩

end AdaptiveRate.Mac.LinkRequest
