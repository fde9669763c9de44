import AdaptiveRate.Mac.LinkRequest

namespace AdaptiveRate.Mac.LinkRequest

theorem forall_le {m : UInt8} {P : UInt8 → Prop}
    (h : ∀ n ∈ List.range (m.toNat + 1), P (.ofNat n)) {x : UInt8} (hx : x ≤ m) : P x := by
  have hn := h x.toNat (List.mem_range.2 (Nat.lt_succ_of_le (UInt8.le_iff_toNat_le.1 hx)))
  rwa [UInt8.ofNat_toNat] at hn

theorem and_nibbleMax {x : UInt8} (h : x ≤ nibbleMax) : x &&& nibbleMax = x :=
  forall_le (P := fun x ↦ x &&& nibbleMax = x) (by decide) h

theorem and_maskControlMax {x : UInt8} (h : x ≤ maskControlMax) : x &&& maskControlMax = x :=
  forall_le (P := fun x ↦ x &&& maskControlMax = x) (by decide) h

theorem unpack {x y : UInt8} (hx : x ≤ nibbleMax) (hy : y ≤ nibbleMax) :
    (x <<< 4 ||| y) >>> 4 = x ∧ (x <<< 4 ||| y) &&& nibbleMax = y := by
  have hall : ∀ a ∈ List.range (nibbleMax.toNat + 1), ∀ b ∈ List.range (nibbleMax.toNat + 1),
      (UInt8.ofNat a <<< 4 ||| .ofNat b) >>> 4 = .ofNat a ∧
        (UInt8.ofNat a <<< 4 ||| .ofNat b) &&& nibbleMax = .ofNat b := by decide +kernel
  have hrow (a : Nat) (ha : a ∈ List.range (nibbleMax.toNat + 1)) :
      (UInt8.ofNat a <<< 4 ||| y) >>> 4 = .ofNat a ∧
        (UInt8.ofNat a <<< 4 ||| y) &&& nibbleMax = y :=
    forall_le (P := fun y ↦ (UInt8.ofNat a <<< 4 ||| y) >>> 4 = .ofNat a ∧
      (UInt8.ofNat a <<< 4 ||| y) &&& nibbleMax = y) (hall a ha) hy
  exact forall_le (P := fun x ↦ (x <<< 4 ||| y) >>> 4 = x ∧ (x <<< 4 ||| y) &&& nibbleMax = y)
    hrow hx

variable (r : LinkRequest)

def truncate : LinkRequest where
  dataRate := r.dataRate &&& nibbleMax
  txPower := r.txPower &&& nibbleMax
  mask := r.mask
  maskControl := r.maskControl &&& maskControlMax
  transmissions := r.transmissions &&& nibbleMax

theorem ofRaw_bytes (mask : ChannelMask) :
    ChannelMask.ofRaw (mask.raw % 256 + 256 * (mask.raw / 256 % 256)) = mask := by
  have hraw : mask.raw < 65536 := mask.bits.isLt
  have hhigh : mask.raw / 256 % 256 = mask.raw / 256 := Nat.mod_eq_of_lt (by omega)
  rw [hhigh, Nat.mod_add_div]
  simp [ChannelMask.ofRaw, ChannelMask.raw]

theorem ofCommand_toCommand : ofCommand r.toCommand = .ok r.truncate := by
  obtain ⟨hrate, hpower⟩ := unpack (UInt8.and_le_right (a := r.dataRate) (b := nibbleMax))
    (UInt8.and_le_right (a := r.txPower) (b := nibbleMax))
  have hcontrol : r.maskControl &&& maskControlMax ≤ maskControlMax := UInt8.and_le_right
  obtain ⟨hupper, hlower⟩ := unpack (UInt8.le_trans hcontrol (by decide))
    (UInt8.and_le_right (a := r.transmissions) (b := nibbleMax))
  simp [ofCommand, toCommand, toBytes, ofBytes, truncate, hrate, hpower, hupper, hlower,
    and_maskControlMax hcontrol, ofRaw_bytes]

structure InRange : Prop where
  dataRate_le : r.dataRate ≤ nibbleMax
  txPower_le : r.txPower ≤ nibbleMax
  maskControl_le : r.maskControl ≤ maskControlMax
  transmissions_le : r.transmissions ≤ nibbleMax

variable {r}

theorem InRange.truncate_eq (h : r.InRange) : r.truncate = r := by
  simp [truncate, and_nibbleMax h.dataRate_le, and_nibbleMax h.txPower_le,
    and_maskControlMax h.maskControl_le, and_nibbleMax h.transmissions_le]

theorem checkRange_bind {field : String} {value m : UInt8}
    {next : Unit → Except Error LinkRequest} :
    (checkRange field value m >>= next) = .ok r ↔ value ≤ m ∧ next () = .ok r := by
  unfold checkRange
  split
  · next h => simpa [bind, Except.bind] using fun hle ↦ absurd h (UInt8.not_lt.2 hle)
  · next h => simp [bind, Except.bind, UInt8.not_lt.1 h]

theorem make_eq_ok_iff {dataRate txPower maskControl transmissions : UInt8} {mask : ChannelMask} :
    make dataRate txPower mask maskControl transmissions = .ok r ↔
      r = ⟨dataRate, txPower, mask, maskControl, transmissions⟩ ∧ r.InRange := by
  simp only [make, checkRange_bind]
  constructor
  · rintro ⟨hrate, hpower, hcontrol, htransmissions, h⟩
    cases h
    exact ⟨rfl, hrate, hpower, hcontrol, htransmissions⟩
  · rintro ⟨rfl, hrange⟩
    exact ⟨hrange.dataRate_le, hrange.txPower_le, hrange.maskControl_le,
      hrange.transmissions_le, rfl⟩

theorem error_of_checkRange_bind {field : String} {value m : UInt8}
    {next : Unit → Except Error LinkRequest} {err : Error}
    (h : (checkRange field value m >>= next) = .error err) :
    err = .outOfRange field value m ∨ next () = .error err := by
  unfold checkRange at h
  split at h
  · cases h
    exact .inl rfl
  · exact .inr h

theorem error_of_make {dataRate txPower maskControl transmissions : UInt8} {mask : ChannelMask}
    {err : Error} (h : make dataRate txPower mask maskControl transmissions = .error err) :
    ∃ field value m, err = .outOfRange field value m := by
  unfold make at h
  rcases error_of_checkRange_bind h with rfl | h
  · exact ⟨_, _, _, rfl⟩
  rcases error_of_checkRange_bind h with rfl | h
  · exact ⟨_, _, _, rfl⟩
  rcases error_of_checkRange_bind h with rfl | h
  · exact ⟨_, _, _, rfl⟩
  rcases error_of_checkRange_bind h with rfl | h
  · exact ⟨_, _, _, rfl⟩
  · cases h

end AdaptiveRate.Mac.LinkRequest
