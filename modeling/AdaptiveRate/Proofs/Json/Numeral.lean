import AdaptiveRate.Json.Numeral
import Mathlib.Data.List.TakeDrop
import Mathlib.Algebra.Order.Field.Rat
import Mathlib.Tactic.FieldSimp
import Mathlib.Tactic.Ring

namespace AdaptiveRate.Json.Numeral

open AdaptiveRate.Number

theorem isDigit_toDigits {n : Nat} {c : Char} (h : c ∈ Nat.toDigits 10 n) : c.isDigit = true :=
  Nat.isDigit_of_mem_toDigits (by decide) (by decide) h

theorem toDigits_zero : Nat.toDigits 10 0 = ['0'] := Nat.toDigits_of_lt_base (by decide)

theorem head_toDigits {n : Nat} (hn : n ≠ 0) : ∃ c cs, Nat.toDigits 10 n = c :: cs ∧ c ≠ '0' := by
  induction n using Nat.strongRecOn with
  | ind n ih =>
    rw [Nat.toDigits_eq_if (by decide)]
    split
    · next hlt =>
      refine ⟨_, _, rfl, ?_⟩
      have hall : ∀ d < 10, d ≠ 0 → Nat.digitChar d ≠ '0' := by decide
      exact hall n hlt hn
    · next hge =>
      obtain ⟨c, cs, heq, hc⟩ := ih (n / 10) (by omega) (by omega)
      exact ⟨c, cs ++ [(n % 10).digitChar], by rw [heq]; rfl, hc⟩

theorem span_digits {ds rest : List Char} (hds : ∀ c ∈ ds, c.isDigit = true)
    (hrest : ∀ c ∈ rest.head?, c.isDigit = false) :
    (ds ++ rest).span Char.isDigit = (ds, rest) := by
  rw [List.span_eq_takeWhile_dropWhile, List.takeWhile_append_of_pos hds,
    List.dropWhile_append_of_pos hds]
  cases rest with
  | nil => simp
  | cons c cs =>
    have hc : c.isDigit = false := hrest c rfl
    simp [hc]

def exponentPart : Option Int → List Char
  | none => []
  | some e => 'e' :: (if e < 0 then '-' else '+') :: Nat.toDigits 10 e.natAbs

theorem readExponent_exponentPart (e : Int) : readExponent (exponentPart (some e)) = some e := by
  have hdigits : (Nat.toDigits 10 e.natAbs).all Char.isDigit = true :=
    List.all_eq_true.2 fun _ hc ↦ isDigit_toDigits hc
  have hempty : (Nat.toDigits 10 e.natAbs).isEmpty = false := by
    rw [List.isEmpty_eq_false_iff]
    exact Nat.toDigits_ne_nil
  by_cases he : e < 0
  · simp [exponentPart, readExponent, he, splitSign, hdigits, hempty, abs_of_neg he]
  · simp [exponentPart, readExponent, he, splitSign, hdigits, hempty, abs_of_nonneg (not_lt.1 he)]

def Plain (n : Numeral) : Prop := ∀ c ∈ n.fraction, c.isDigit = true

variable {n : Numeral}

theorem write_eq : n.write = (if n.negative then ['-'] else []) ++ (Nat.toDigits 10 n.whole ++
    ((if n.fraction.isEmpty then [] else '.' :: n.fraction) ++ exponentPart n.exponent)) := by
  rw [← List.append_assoc, ← List.append_assoc]
  cases h : n.exponent <;> simp [write, exponentPart, h]

/-- A written whole part has no zero in front that is not all of it. -/
theorem whole_accepted (whole : Nat) : ((Nat.toDigits 10 whole).isEmpty ||
    ((Nat.toDigits 10 whole).head? == some '0' &&
      (Nat.toDigits 10 whole).length != 1)) = false := by
  by_cases hzero : whole = 0
  · rw [hzero, toDigits_zero]
    rfl
  · obtain ⟨c, cs, heq, hc⟩ := head_toDigits hzero
    simp [heq, hc]

theorem toDigits_append (whole : Nat) (rest : List Char) : ∃ c cs, c.isDigit = true ∧
    Nat.toDigits 10 whole ++ rest = c :: cs := by
  obtain ⟨c, cs, hcs⟩ := List.exists_cons_of_ne_nil (Nat.toDigits_ne_nil (n := whole) (b := 10))
  exact ⟨c, cs ++ rest, isDigit_toDigits (hcs ▸ List.mem_cons_self), by rw [hcs]; rfl⟩

theorem sign_of_split {negative sign : Bool} {c : Char} {cs body : List Char}
    (hc : c.isDigit = true) (hsplit : (match (if negative then ['-'] else []) ++ c :: cs with
      | '-' :: tail => (true, tail)
      | body => (false, body)) = (sign, body)) : sign = negative ∧ body = c :: cs := by
  cases negative
  · split at hsplit
    · next heq =>
      cases heq
      cases hc
    · cases hsplit
      exact ⟨rfl, rfl⟩
  · cases hsplit
    exact ⟨rfl, rfl⟩

theorem span_fraction {ds : List Char} (hds : ∀ c ∈ ds, c.isDigit = true) (exponent : Option Int) :
    (ds ++ exponentPart exponent).span Char.isDigit = (ds, exponentPart exponent) := by
  apply span_digits hds
  cases exponent <;> simp [exponentPart]

theorem readRest_exponentPart {α : Type} (exponent : Option Int) (k : Option Int → α) :
    (if (exponentPart exponent).isEmpty then do
        let exponent ← some none
        pure (k exponent)
      else do
        let exponent ← (readExponent (exponentPart exponent)).map some
        pure (k exponent)) = some (k exponent) := by
  cases exponent with
  | none => rfl
  | some e =>
    rw [readExponent_exponentPart]
    rfl

theorem read_write (h : n.Plain) : read n.write = some n := by
  obtain ⟨negative, whole, fraction, exponent⟩ := n
  rw [write_eq]
  dsimp only
  generalize hrest : (if fraction.isEmpty = true then [] else '.' :: fraction) ++
    exponentPart exponent = rest
  have hspan : (Nat.toDigits 10 whole ++ rest).span Char.isDigit =
      (Nat.toDigits 10 whole, rest) := by
    apply span_digits fun _ hc ↦ isDigit_toDigits hc
    subst hrest
    cases fraction <;> cases exponent <;> simp [exponentPart]
  unfold read
  split
  next sign body hsplit =>
  obtain ⟨c, cs, hc, hcs⟩ := toDigits_append whole rest
  rw [hcs] at hsplit hspan
  obtain ⟨rfl, rfl⟩ := sign_of_split hc hsplit
  rw [hspan]
  dsimp only
  rw [whole_accepted, if_neg Bool.false_ne_true, Nat.ofDigitChars_ten_toDigits]
  subst hrest
  cases fraction with
  | nil =>
    split
    · next heq => cases exponent <;> simp [exponentPart] at heq
    · exact readRest_exponentPart exponent _
  | cons first digits =>
    rw [if_neg (by simp), List.cons_append]
    split
    · next heq =>
      cases heq
      rw [span_fraction h]
      exact readRest_exponentPart exponent _
    · next hne => exact absurd rfl (hne _)

namespace Significand

theorem le_ofDigitChars (cs : List Char) (v : Nat) : v ≤ Nat.ofDigitChars 10 cs v := by
  induction cs generalizing v with
  | nil => exact le_rfl
  | cons c cs ih =>
    rw [Nat.ofDigitChars_cons]
    exact le_trans (by omega) (ih _)

theorem foldl_take {cs : List Char} {v : Nat} {e taken left : Int}
    (h : Nat.ofDigitChars 10 cs v < UInt64.size) :
    cs.foldl (fun (s : Significand) c ↦ s.take c taken left) ⟨v, e, false⟩ =
      ⟨Nat.ofDigitChars 10 cs v, e + cs.length * taken, false⟩ := by
  induction cs generalizing v e with
  | nil => simp
  | cons c cs ih =>
    rw [Nat.ofDigitChars_cons] at h ⊢
    have hfits : 10 * v + (c.toNat - '0'.toNat) < UInt64.size :=
      lt_of_le_of_lt (le_ofDigitChars cs _) h
    rw [List.foldl_cons, take, Bool.not_false, Bool.true_and, if_pos (decide_eq_true hfits), ih h,
      List.length_cons, Int.natCast_add, Int.natCast_one, Int.add_mul, Int.one_mul, Int.add_assoc,
      Int.add_comm taken]

theorem ofDigits_eq {whole fraction : List Char}
    (h : Nat.ofDigitChars 10 (whole ++ fraction) 0 < UInt64.size) :
    ofDigits whole fraction =
      ⟨Nat.ofDigitChars 10 (whole ++ fraction) 0, -fraction.length, false⟩ := by
  rw [Nat.ofDigitChars_append] at h ⊢
  have hwhole : Nat.ofDigitChars 10 whole 0 < UInt64.size :=
    lt_of_le_of_lt (le_ofDigitChars fraction _) h
  rw [ofDigits, foldl_take hwhole, foldl_take h]
  simp

end Significand

section OfDecimal

variable {negative : Bool} {d : Decimal}

theorem ofDecimal_negative :
    ofDecimal negative d = { ofDecimal false d with negative := negative } := by
  unfold ofDecimal
  dsimp only
  split <;> rfl

theorem isDigit_paddedDigits {width m : Nat} {c : Char} (h : c ∈ paddedDigits width m) :
    c.isDigit = true := by
  rcases List.mem_append.1 h with hzero | hdigit
  · rw [List.eq_of_mem_replicate hzero]
    rfl
  · exact isDigit_toDigits hdigit

theorem paddedDigits_length {width m : Nat} (hwidth : 0 < width) (h : m < 10 ^ width) :
    (paddedDigits width m).length = width := by
  have hle := (Nat.length_toDigits_le_iff (by decide) hwidth).2 h
  rw [paddedDigits, List.length_append, List.length_replicate]
  omega

theorem ofDigitChars_paddedDigits (width m : Nat) :
    Nat.ofDigitChars 10 (paddedDigits width m) 0 = m := by
  rw [paddedDigits, Nat.ofDigitChars_append, Nat.ofDigitChars_replicate_zero, Nat.mul_zero,
    Nat.ofDigitChars_ten_toDigits]

theorem mul_ten_pow_lt {m e top : Nat} (h : e + (Nat.toDigits 10 m).length ≤ top) :
    m * 10 ^ e < 10 ^ top := by
  have hdigits : m < 10 ^ (Nat.toDigits 10 m).length :=
    (Nat.length_toDigits_le_iff (by decide) Nat.length_toDigits_pos).1 le_rfl
  calc m * 10 ^ e < 10 ^ (Nat.toDigits 10 m).length * 10 ^ e :=
        Nat.mul_lt_mul_of_pos_right hdigits (Nat.pow_pos (by decide))
    _ = 10 ^ (e + (Nat.toDigits 10 m).length) := by rw [← Nat.pow_add, Nat.add_comm]
    _ ≤ 10 ^ top := Nat.pow_le_pow_right (by decide) h

/-- How the digits of a decimal are spread over its numeral. -/
theorem ofDecimal_cases (negative : Bool) (hd : d.digits ≠ 0) :
    (∃ e : Nat, d.exponent = e ∧ d.digits * 10 ^ e < 10 ^ 13 ∧
      ofDecimal negative d = ⟨negative, d.digits * 10 ^ e, ['0'], none⟩) ∨
    (∃ e : Nat, d.exponent = -(e + 1 : Nat) ∧ ofDecimal negative d =
      ⟨negative, d.digits / 10 ^ (e + 1), paddedDigits (e + 1) (d.digits % 10 ^ (e + 1)), none⟩) ∨
    ∃ c cs, Nat.toDigits 10 d.digits = c :: cs ∧ ofDecimal negative d =
      ⟨negative, Nat.ofDigitChars 10 [c] 0, cs, some (d.exponent + cs.length)⟩ := by
  obtain ⟨digits, exponent⟩ := d
  unfold ofDecimal
  dsimp only
  split
  · next hplace =>
    cases exponent with
    | ofNat e =>
      refine .inl ⟨e, rfl, mul_ten_pow_lt ?_, rfl⟩
      simp only [Bool.or_eq_true, decide_eq_true_eq, Bool.and_eq_true] at hplace
      rcases hplace with hzero | ⟨-, hle⟩
      · exact absurd hzero hd
      · have := Int.ofNat_eq_natCast e
        omega
    | negSucc e =>
      refine .inr (.inl ⟨e, rfl, ?_⟩)
      have hfraction : (paddedDigits (e + 1) (digits % tens (e + 1))).isEmpty = false := by
        rw [List.isEmpty_eq_false_iff]
        exact List.append_ne_nil_of_right_ne_nil _ Nat.toDigits_ne_nil
      simp only [Decimal.positional, hfraction]
      rfl
  · obtain ⟨c, cs, hcs⟩ := List.exists_cons_of_ne_nil (Nat.toDigits_ne_nil (n := digits) (b := 10))
    refine .inr (.inr ⟨c, cs, hcs, ?_⟩)
    rw [hcs, List.take_succ_cons, List.take_zero, List.drop_succ_cons, List.drop_zero,
      List.length_cons]
    congr 2
    omega

theorem plain_ofDecimal (hd : d.digits ≠ 0) : (ofDecimal negative d).Plain := by
  intro c hc
  rcases ofDecimal_cases negative hd with
    ⟨e, -, -, h⟩ | ⟨e, -, h⟩ | ⟨first, cs, hcs, h⟩
  · rw [h] at hc
    rw [List.mem_singleton.1 hc]
    rfl
  · rw [h] at hc
    exact isDigit_paddedDigits hc
  · rw [h] at hc
    exact isDigit_toDigits (hcs ▸ List.mem_cons_of_mem first hc)

theorem toInt?_ofDecimal (hd : d.digits ≠ 0) : (ofDecimal negative d).toInt? = none := by
  rcases ofDecimal_cases negative hd with
    ⟨e, -, -, h⟩ | ⟨e, -, h⟩ | ⟨first, cs, -, h⟩
  · rw [h]
    rfl
  · have hne : paddedDigits (e + 1) (d.digits % 10 ^ (e + 1)) ≠ [] :=
      List.append_ne_nil_of_right_ne_nil _ Nat.toDigits_ne_nil
    rw [h, toInt?, if_neg]
    simp [hne]
  · rw [h, toInt?, if_neg]
    simp

theorem toDouble?_eq {whole v : Nat} {fraction : List Char} {exponent : Option Int}
    (hv : Nat.ofDigitChars 10 (Nat.toDigits 10 whole ++ fraction) 0 = v) (hlt : v < UInt64.size) :
    toDouble? ⟨false, whole, fraction, exponent⟩ =
      scaled v (-fraction.length + exponent.getD 0) := by
  rw [toDouble?]
  dsimp only
  rw [Significand.ofDigits_eq (hv.symm ▸ hlt), hv]
  simp

/-- Numerals that fit 64 bits are read by one multiplication or division with a power of ten. -/
theorem toDouble?_ofDecimal (hd : d.digits ≠ 0) (hlt : d.digits < 10 ^ 14) :
    ∃ (v : Nat) (e : Int), (ofDecimal false d).toDouble? = scaled v e ∧ 0 < v ∧ v < 10 ^ 14 ∧
      (e = -1 ∨ e = d.exponent) ∧ (v : ℚ) * 10 ^ e = d.digits * 10 ^ d.exponent := by
  have hsize : 10 ^ 14 < UInt64.size := by decide
  have hpos : 0 < d.digits := Nat.pos_of_ne_zero hd
  rcases ofDecimal_cases false hd with
    ⟨e, he, hsmall, h⟩ | ⟨e, he, h⟩ | ⟨c, cs, hcs, h⟩
  · have hvalue : Nat.ofDigitChars 10 (Nat.toDigits 10 (d.digits * 10 ^ e) ++ ['0']) 0 =
        d.digits * 10 ^ e * 10 := by
      rw [Nat.ofDigitChars_append, Nat.ofDigitChars_ten_toDigits, Nat.ofDigitChars_cons,
        Nat.ofDigitChars_nil]
      omega
    refine ⟨d.digits * 10 ^ e * 10, -1, ?_, ?_, by omega, .inl rfl, ?_⟩
    · rw [h, toDouble?_eq hvalue (by omega)]
      rfl
    · exact Nat.mul_pos (Nat.mul_pos hpos (Nat.pow_pos (by decide))) (by decide)
    · rw [he, zpow_natCast, zpow_neg_one]
      push_cast
      field_simp
  · have hlen : (paddedDigits (e + 1) (d.digits % 10 ^ (e + 1))).length = e + 1 :=
        paddedDigits_length (Nat.succ_pos e) (Nat.mod_lt _ (Nat.pow_pos (by decide)))
    have hvalue : Nat.ofDigitChars 10 (Nat.toDigits 10 (d.digits / 10 ^ (e + 1)) ++
        paddedDigits (e + 1) (d.digits % 10 ^ (e + 1))) 0 = d.digits := by
      rw [Nat.ofDigitChars_append, Nat.ofDigitChars_ten_toDigits,
        Nat.ofDigitChars_eq_ofDigitChars_zero, ofDigitChars_paddedDigits, hlen]
      exact Nat.div_add_mod _ _
    refine ⟨d.digits, d.exponent, ?_, hpos, hlt, .inr rfl, rfl⟩
    rw [h, toDouble?_eq hvalue (by omega), hlen, he]
    rfl
  · have hvalue : Nat.ofDigitChars 10 (Nat.toDigits 10 (Nat.ofDigitChars 10 [c] 0) ++ cs) 0 =
        d.digits := by
      rw [Nat.ofDigitChars_append, Nat.ofDigitChars_ten_toDigits, ← Nat.ofDigitChars_append,
        List.singleton_append, ← hcs, Nat.ofDigitChars_ten_toDigits]
    refine ⟨d.digits, d.exponent, ?_, hpos, hlt, .inr rfl, rfl⟩
    rw [h, toDouble?_eq hvalue (by omega), Option.getD_some]
    congr 1
    omega

end OfDecimal

end AdaptiveRate.Json.Numeral
