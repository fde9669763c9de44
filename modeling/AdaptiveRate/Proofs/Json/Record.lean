import AdaptiveRate.Json.Record
import AdaptiveRate.Proofs.Json.Builder
import AdaptiveRate.Proofs.Json.Single

namespace AdaptiveRate.Json

open AdaptiveRate.Number

structure Kept {α : Type} [Codec α] (a : α) : Prop where
  readable : Readable (encode a)
  decode_eq : decode (encode a) = some a

section Integers

variable {z low high : Int}

theorem Numeral.plain_ofInt (z : Int) : (ofInt z).Plain := fun _ h ↦ by cases h

theorem Numeral.toInt?_ofInt (z : Int) : (ofInt z).toInt? = some z := by
  have hzero : (decide (z < 0) && z.natAbs == 0) = false := by
    rw [Bool.and_eq_false_iff, decide_eq_false_iff_not, beq_eq_false_iff_ne]
    omega
  have hvalue : (if decide (z < 0) = true then -(z.natAbs : Int) else z.natAbs) = z := by
    simp only [decide_eq_true_eq]
    split <;> omega
  rw [toInt?, ofInt, hzero, hvalue]
  rfl

theorem decodeInt_ofInt (hlow : low ≤ z) (hhigh : z ≤ high) :
    decodeInt low high (.number (.ofInt z)) = some z := by
  rw [decodeInt, Numeral.toInt?_ofInt, Option.filter_some, decide_eq_true hlow,
    decide_eq_true hhigh]
  rfl

theorem kept_uint8 (n : UInt8) : Kept n where
  readable := .number (Numeral.plain_ofInt _)
  decode_eq := by
    have hsize := n.toNat_lt_size
    have hread : decodeInt 0 (UInt8.size - 1) (encode n) = some (n.toNat : Int) :=
      decodeInt_ofInt (Int.natCast_nonneg _) (by omega)
    change (decodeInt 0 (UInt8.size - 1) (encode n)).map _ = some n
    rw [hread, Option.map_some, Int.toNat_natCast, UInt8.ofNat_toNat]

theorem kept_uint64 (n : UInt64) : Kept n where
  readable := .number (Numeral.plain_ofInt _)
  decode_eq := by
    have hsize := n.toNat_lt_size
    have hread : decodeInt 0 (UInt64.size - 1) (encode n) = some (n.toNat : Int) :=
      decodeInt_ofInt (Int.natCast_nonneg _) (by omega)
    change (decodeInt 0 (UInt64.size - 1) (encode n)).map _ = some n
    rw [hread, Option.map_some, Int.toNat_natCast, UInt64.ofNat_toNat]

end Integers

section Singles

variable {x : Single}

theorem encode_of_isFinite (hx : x.isFinite = true) :
    ∃ n, encode x = .number n ∧ n.Plain ∧ n.toSingle? = some x := by
  obtain ⟨n, hn, hplain, hread⟩ := Numeral.exists_ofSingle? hx
  refine ⟨n, ?_, hplain, hread⟩
  simp only [encode, hn]

theorem encode_of_not_isFinite (hx : x.isFinite = false) : encode x = .null := by
  cases x with
  | finite s m fits => cases hx
  | infinite s => rfl
  | nan => rfl

theorem readable_single (x : Single) : Readable (encode x) := by
  cases hx : x.isFinite with
  | false =>
    rw [encode_of_not_isFinite hx]
    exact .null
  | true =>
    obtain ⟨n, hn, hplain, -⟩ := encode_of_isFinite hx
    rw [hn]
    exact .number hplain

theorem decode_single (x : Single) : decode (encode x) = if x.isFinite then some x else none := by
  cases hx : x.isFinite with
  | false =>
    rw [encode_of_not_isFinite hx]
    rfl
  | true =>
    obtain ⟨n, hn, -, hread⟩ := encode_of_isFinite hx
    rw [hn]
    exact hread

end Singles

namespace Fields

variable {α : Type} [Codec α] {names : List String} {members : List (String × Json)}

theorem mapM_names (members : List (String × Json)) :
    (members.map fun (k, v) ↦ ((some k, v) : Text × Json)).mapM
      (fun (key, v) ↦ key.map (·, v)) = some members := by
  induction members with
  | nil => rfl
  | cons m members ih =>
    rw [List.map_cons, List.mapM_cons, ih]
    rfl

theorem read_record (hnames : ∀ m ∈ members, m.1 ∈ names)
    (hnodup : (members.map (·.1)).Nodup) : read names (record members) = some ⟨true, members⟩ := by
  have hknown : members.filter (·.1 ∈ names) = members :=
    List.filter_eq_self.2 fun m hm ↦ decide_eq_true (hnames m hm)
  unfold read record
  dsimp only
  rw [mapM_names]
  simp [hknown, hnodup]

theorem getD_cons (named : Bool) (key name : String) (v : Json) (entries : List (String × Json))
    (default : α) : getD ⟨named, (key, v) :: entries⟩ name default =
      if name = key then decode v else getD ⟨named, entries⟩ name default := by
  by_cases h : name = key
  · rw [if_pos h, getD, h, List.lookup_cons_self]
  · rw [if_neg h, getD, getD, List.lookup_cons, beq_eq_false_iff_ne.2 h]

theorem readable_record (h : ∀ m ∈ members, Readable m.2) : Readable (record members) := by
  refine .object ?_ ?_
  · intro m hm
    obtain ⟨m', hm', rfl⟩ := List.mem_map.1 hm
    exact ⟨m'.1, rfl⟩
  · intro m hm
    obtain ⟨m', hm', rfl⟩ := List.mem_map.1 hm
    exact h m' hm'

end Fields

end AdaptiveRate.Json
