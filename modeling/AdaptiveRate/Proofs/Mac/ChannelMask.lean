import AdaptiveRate.Mac.ChannelMask

namespace AdaptiveRate.ChannelMask

theorem getLsbD_bit (channel i : Nat) :
    (1#16 <<< channel).getLsbD i = decide (i < 16 ∧ i = channel) := by
  simp only [BitVec.getLsbD_shiftLeft, BitVec.getLsbD_one]
  rw [Bool.eq_iff_iff]
  simp only [Bool.and_eq_true, Bool.not_eq_true', decide_eq_true_eq, decide_eq_false_iff_not]
  omega

theorem isEnabled_eq_getLsbD (m : ChannelMask) (i : Nat) : m.isEnabled i = m.bits.getLsbD i := by
  by_cases hi : i < 16
  · have hseen (j : Nat) : (m.bits &&& 1#16 <<< i).getLsbD j =
        (m.bits.getLsbD j && decide (j < 16 ∧ j = i)) := by
      rw [BitVec.getLsbD_and, getLsbD_bit]
    cases hb : m.bits.getLsbD i with
    | false =>
      have hnone : m.bits &&& 1#16 <<< i = 0#16 := by
        apply BitVec.eq_of_getLsbD_eq
        intro j _
        rw [hseen, BitVec.getLsbD_zero]
        by_cases hj : j = i <;> simp [hj, hb]
      simp [isEnabled, hnone]
    | true =>
      have hsome : m.bits &&& 1#16 <<< i ≠ 0#16 := by
        intro hzero
        have hbit := hseen i
        rw [hzero, BitVec.getLsbD_zero, hb] at hbit
        simp [hi] at hbit
      simp [isEnabled, hi, hsome]
  · simp [isEnabled, hi, BitVec.getLsbD_of_ge _ _ (Nat.le_of_not_lt hi)]

theorem isEnabled_or_bit (m : ChannelMask) (channel i : Nat) :
    (⟨m.bits ||| 1#16 <<< channel⟩ : ChannelMask).isEnabled i =
      (m.isEnabled i || decide (i < 16 ∧ i = channel)) := by
  simp only [isEnabled_eq_getLsbD, BitVec.getLsbD_or, getLsbD_bit]

theorem isEnabled_empty (i : Nat) : empty.isEnabled i = false := by
  simp [isEnabled_eq_getLsbD, empty]

theorem isEnabled_ofChannels (channels : List UInt8) (i : Nat) :
    (ofChannels channels).isEnabled i = true ↔ i < 16 ∧ ∃ c ∈ channels, c.toNat = i := by
  have hfold (m : ChannelMask) : ((channels.filter (·.toNat < 16)).foldl
      (fun m c ↦ ⟨m.bits ||| 1#16 <<< c.toNat⟩) m).isEnabled i = true ↔
        m.isEnabled i = true ∨ i < 16 ∧ ∃ c ∈ channels, c.toNat = i := by
    induction channels generalizing m with
    | nil => simp
    | cons c channels ih =>
      by_cases hc : c.toNat < 16
      · rw [List.filter_cons_of_pos (by simpa using hc), List.foldl_cons, ih, isEnabled_or_bit]
        simp only [Bool.or_eq_true, decide_eq_true_eq, List.mem_cons, exists_eq_or_imp, or_assoc]
        grind
      · rw [List.filter_cons_of_neg (by simpa using hc), ih]
        grind
  rw [ofChannels, hfold]
  simp [isEnabled_empty]

end AdaptiveRate.ChannelMask
