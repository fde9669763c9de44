import AdaptiveRate.Proofs.Mac.ChannelMask
import Mathlib.Data.Nat.Count
import Mathlib.Data.Set.Card

namespace BitVec

theorem cpopNatRec_eq_count {w : Nat} (b : BitVec w) (n acc : Nat) :
    b.cpopNatRec n acc = acc + Nat.count (fun i ↦ b.getLsbD i = true) n := by
  induction n generalizing acc with
  | zero => rw [cpopNatRec_zero_self, Nat.count_zero, Nat.add_zero]
  | succ n ih =>
    rw [cpopNatRec_succ, ih, Nat.count_succ]
    cases b.getLsbD n with
    | false => rfl
    | true => exact Nat.add_right_comm acc 1 _

end BitVec

namespace Nat

theorem leftpad_toDigits_succ (k n : Nat) : (toDigits 2 n).leftpad (k + 2) '0' =
    (toDigits 2 (n / 2)).leftpad (k + 1) '0' ++ [if n.testBit 0 then '1' else '0'] := by
  have hlast : (n % 2).digitChar = if n.testBit 0 then '1' else '0' := by
    rcases mod_two_eq_zero_or_one n with h | h <;> simp [testBit_zero, h, digitChar]
  rcases Nat.lt_or_ge n 2 with hn | hn
  · have hhalf : n / 2 = 0 := by omega
    rw [← hlast, mod_eq_of_lt hn, hhalf, toDigits_of_lt_base hn, toDigits_zero]
    simp [List.leftpad, List.replicate_succ']
  · rw [toDigits_of_base_le (by decide) hn, hlast]
    simp [List.leftpad]

/-- Binary digits filled up with zeros are the bits of the number. -/
theorem leftpad_toDigits_two {k n : Nat} (h : n < 2 ^ (k + 1)) :
    (toDigits 2 n).leftpad (k + 1) '0' =
      (List.range (k + 1)).reverse.map fun i ↦ if n.testBit i then '1' else '0' := by
  induction k generalizing n with
  | zero =>
    have hn : n = 0 ∨ n = 1 := by omega
    rcases hn with rfl | rfl <;> decide
  | succ k ih =>
    have hhalf : n / 2 < 2 ^ (k + 1) := by omega
    rw [leftpad_toDigits_succ, ih hhalf, List.range_succ_eq_map (n := k + 1), List.reverse_cons,
      List.map_append, ← List.map_reverse, List.map_map]
    simp only [Function.comp_def, succ_eq_add_one, testBit_succ, List.map_singleton]

end Nat

namespace AdaptiveRate.ChannelMask

inductive Origin
  | channels (cs : List UInt8)
  | raw (n : UInt16)

def Origin.mask : Origin → ChannelMask
  | .channels cs => .ofChannels cs
  | .raw n => .ofRaw n.toNat

def Origin.includes (o : Origin) (i : Nat) : Bool :=
  match o with
  | .channels cs => cs.any (·.toNat = i)
  | .raw n => n.toNat.testBit i

def edit (m : ChannelMask) (edits : List (Nat × Bool)) : ChannelMask :=
  edits.foldl (fun m e ↦ m.set e.1 e.2) m

def lastEdit (edits : List (Nat × Bool)) (i : Nat) : Option Bool := edits.reverse.lookup i

variable (m : ChannelMask)

theorem isEnabled_of_le {i : Nat} (h : 16 ≤ i) : m.isEnabled i = false := by
  rw [isEnabled_eq_getLsbD, BitVec.getLsbD_of_ge _ _ h]

theorem eq_of_isEnabled {m m' : ChannelMask} (h : ∀ i < 16, m.isEnabled i = m'.isEnabled i) :
    m = m' := by
  have hbits : m.bits = m'.bits := by
    apply BitVec.eq_of_getLsbD_eq
    intro i hi
    rw [← isEnabled_eq_getLsbD, ← isEnabled_eq_getLsbD, h i hi]
  cases m
  cases m'
  exact congrArg mk hbits

theorem isEnabled_and_not_bit (channel i : Nat) :
    (⟨m.bits &&& ~~~(1#16 <<< channel)⟩ : ChannelMask).isEnabled i =
      (m.isEnabled i && !decide (i = channel)) := by
  simp only [isEnabled_eq_getLsbD, BitVec.getLsbD_and, BitVec.getLsbD_not, getLsbD_bit]
  by_cases hi : i < 16
  · simp only [hi, decide_true, Bool.true_and, true_and]
  · rw [BitVec.getLsbD_of_ge _ _ (Nat.le_of_not_lt hi), Bool.false_and, Bool.false_and]

theorem isEnabled_set (channel i : Nat) (on : Bool) : (m.set channel on).isEnabled i =
    (decide (i < 16) && if i = channel then on else m.isEnabled i) := by
  by_cases hi : i < 16
  · rw [decide_eq_true hi, Bool.true_and]
    by_cases hout : 16 ≤ channel
    · rw [set, if_pos hout, if_neg (by omega)]
    · rw [set, if_neg hout]
      cases on with
      | true =>
        rw [if_pos rfl, isEnabled_or_bit]
        by_cases heq : i = channel <;> simp [heq, Nat.lt_of_not_le hout]
      | false =>
        rw [if_neg Bool.false_ne_true, isEnabled_and_not_bit]
        by_cases heq : i = channel <;> simp [heq]
  · rw [isEnabled_of_le _ (Nat.le_of_not_lt hi), decide_eq_false hi, Bool.false_and]

theorem lastEdit_concat (edits : List (Nat × Bool)) (channel i : Nat) (on : Bool) :
    lastEdit (edits ++ [(channel, on)]) i =
      if i = channel then some on else lastEdit edits i := by
  rw [lastEdit, List.reverse_concat, List.lookup_cons]
  by_cases heq : i = channel
  · rw [if_pos heq, beq_iff_eq.2 heq]
  · rw [if_neg heq, beq_eq_false_iff_ne.2 heq]
    rfl

/-- Every edit is undone by the next one of its channel, and by no other. -/
theorem isEnabled_edit (edits : List (Nat × Bool)) (i : Nat) : (m.edit edits).isEnabled i =
    (decide (i < 16) && (lastEdit edits i).getD (m.isEnabled i)) := by
  by_cases hi : i < 16
  · rw [decide_eq_true hi, Bool.true_and]
    induction edits using List.reverseRecOn with
    | nil => rfl
    | append_singleton edits e ih =>
      obtain ⟨channel, on⟩ := e
      have hlast : m.edit (edits ++ [(channel, on)]) = (m.edit edits).set channel on :=
        List.foldl_concat ..
      rw [hlast, isEnabled_set, ih, lastEdit_concat, decide_eq_true hi, Bool.true_and]
      by_cases heq : i = channel
      · rw [if_pos heq, if_pos heq, Option.getD_some]
      · rw [if_neg heq, if_neg heq]
  · rw [isEnabled_of_le _ (Nat.le_of_not_lt hi), decide_eq_false hi, Bool.false_and]

theorem isEnabled_mask (o : Origin) (i : Nat) :
    o.mask.isEnabled i = (decide (i < 16) && o.includes i) := by
  cases o with
  | channels cs =>
    rw [Bool.eq_iff_iff]
    simp [Origin.mask, Origin.includes, isEnabled_ofChannels]
  | raw n =>
    rw [isEnabled_eq_getLsbD, Origin.mask, Origin.includes, ofRaw, BitVec.getLsbD_ofNat]

theorem count_eq_ncard : m.count = {i | m.isEnabled i = true}.ncard := by
  have hset : {i | m.isEnabled i = true} =
      ((Finset.range 16).filter fun i ↦ m.bits.getLsbD i = true : Finset Nat) := by
    ext i
    rw [Finset.coe_filter, Set.mem_ofPred_eq, Set.mem_ofPred_eq, Finset.mem_range,
      isEnabled_eq_getLsbD]
    exact ⟨fun h ↦ ⟨BitVec.lt_of_getLsbD h, h⟩, fun h ↦ h.2⟩
  rw [hset, Set.ncard_coe_finset, ← Nat.count_eq_card_filter_range, count, BitVec.toNat_cpop,
    BitVec.cpopNatRec_eq_count, Nat.zero_add]

theorem text_eq : m.text = String.ofList
    (List.ofFn fun j : Fin 16 ↦ if m.isEnabled (15 - j) then '1' else '0') := by
  have hdigits := Nat.leftpad_toDigits_two m.bits.isLt
  simp only [isEnabled_eq_getLsbD]
  exact congrArg String.ofList hdigits

theorem ofChannels_eq_edit (cs : List UInt8) :
    ofChannels cs = empty.edit (cs.map fun c ↦ (c.toNat, true)) := by
  suffices ∀ m : ChannelMask, (cs.filter (·.toNat < 16)).foldl
      (fun m c ↦ ⟨m.bits ||| 1#16 <<< c.toNat⟩) m = m.edit (cs.map fun c ↦ (c.toNat, true)) from
    this empty
  intro m
  induction cs generalizing m with
  | nil => rfl
  | cons c cs ih =>
    have hfirst : m.edit ((c :: cs).map fun c ↦ (c.toNat, true)) =
        (m.set c.toNat true).edit (cs.map fun c ↦ (c.toNat, true)) := rfl
    by_cases hc : c.toNat < 16
    · rw [List.filter_cons_of_pos (by simpa using hc), List.foldl_cons, ih, hfirst, set,
        if_neg (Nat.not_le.2 hc), if_pos rfl]
    · rw [List.filter_cons_of_neg (by simpa using hc), ih, hfirst, set,
        if_pos (Nat.le_of_not_lt hc)]

theorem ofChannels_eq_iff {cs cs' : List UInt8} : ofChannels cs = ofChannels cs' ↔
    ∀ i : Fin 16, (∃ c ∈ cs, c.toNat = i) ↔ ∃ c ∈ cs', c.toNat = i := by
  have hshown (cs : List UInt8) (i : Fin 16) :
      (ofChannels cs).isEnabled i = true ↔ ∃ c ∈ cs, c.toNat = i := by
    rw [isEnabled_ofChannels]
    exact and_iff_right i.isLt
  constructor
  · intro h i
    rw [← hshown, ← hshown, h]
  · intro h
    apply eq_of_isEnabled
    intro i hi
    rw [Bool.eq_iff_iff]
    exact (hshown cs ⟨i, hi⟩).trans ((h ⟨i, hi⟩).trans (hshown cs' ⟨i, hi⟩).symm)

/-- Whatever a mask is made from and however it is edited, its channels, their number and its digits
tell of the same set. -/
theorem views_of_edited (origin : Origin) (edits : List (Nat × Bool)) :
    (∀ i, (origin.mask.edit edits).isEnabled i =
      (decide (i < 16) && (lastEdit edits i).getD (origin.includes i))) ∧
    (origin.mask.edit edits).count =
      {i | (origin.mask.edit edits).isEnabled i = true}.ncard ∧
    (origin.mask.edit edits).text = String.ofList (List.ofFn fun j : Fin 16 ↦
      if (origin.mask.edit edits).isEnabled (15 - j) then '1' else '0') ∧
    ∀ cs cs' : List UInt8,
      ofChannels cs = empty.edit (cs.map fun c ↦ (c.toNat, true)) ∧
      (ofChannels cs = ofChannels cs' ↔
        ∀ i : Fin 16, (∃ c ∈ cs, c.toNat = i) ↔ ∃ c ∈ cs', c.toNat = i) := by
  refine ⟨?_, count_eq_ncard _, text_eq _, fun cs cs' ↦ ⟨ofChannels_eq_edit cs, ofChannels_eq_iff⟩⟩
  intro i
  rw [isEnabled_edit, isEnabled_mask]
  cases decide (i < 16) with
  | false => rfl
  | true => rw [Bool.true_and, Bool.true_and, Bool.true_and]

end AdaptiveRate.ChannelMask
