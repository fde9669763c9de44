import AdaptiveRate.Proofs.Json.Lexer

namespace AdaptiveRate.Json

namespace Builder

variable {around : List Container} {rest : List Token} {v : Json}

def run (b : Builder) (ts : List Token) : Option Builder := ts.foldlM step b

theorem run_cons {b b' : Builder} {t : Token} (h : b.step t = some b') :
    b.run (t :: rest) = b'.run rest := by
  rw [run, List.foldlM_cons, h]
  rfl

def Awaits (b : Builder) (around : List Container) : Prop :=
  ∀ t ≠ Token.closeArray, b.step t = openValue around t

theorem awaits_value : (value around).Awaits around := fun _ _ ↦ rfl

theorem awaits_arrayStart : (arrayStart around).Awaits (.array [] :: around) := by
  intro t ht
  cases t with
  | closeArray => exact absurd rfl ht
  | _ => rfl

/-- The tokens of a value put it where one is awaited. -/
def Builds (v : Json) : Prop := ∀ b around rest, Awaits b around →
  b.run (spelled v ++ rest) = (place v around).run rest

theorem builds_token {t : Token} (hspelled : spelled v = [t]) (hclose : t ≠ .closeArray)
    (hopen : ∀ around, openValue around t = some (place v around)) : Builds v := by
  intro b around rest hb
  rw [hspelled]
  exact run_cons ((hb t hclose).trans (hopen around))

theorem run_items {vs : List Json} (h : ∀ v ∈ vs, Builds v) (items : List Json) :
    (arrayNext items around).run (spelledItems vs ++ rest) =
      (place (.array (items.reverse ++ vs)) around).run rest := by
  induction vs generalizing items with
  | nil =>
    rw [List.append_nil]
    exact run_cons rfl
  | cons v vs ih =>
    obtain ⟨hv, hvs⟩ := List.forall_mem_cons.1 h
    have hcomma : step (arrayNext items around) .comma = some (value (.array items :: around)) :=
      rfl
    simp only [spelledItems, List.cons_append, List.append_assoc]
    rw [run_cons hcomma, hv _ _ _ awaits_value, place, ih hvs, List.reverse_cons,
      List.append_assoc, List.singleton_append]

theorem run_member {name : Text} {members : List (Text × Json)} (hv : Builds v) :
    (objectColon members name around).run (.colon :: (spelled v ++ rest)) =
      (objectNext ((name, v) :: members) around).run rest := by
  have hcolon : step (objectColon members name around) .colon =
      some (value (.object members name :: around)) := rfl
  rw [run_cons hcolon, hv _ _ _ awaits_value, place]

theorem run_members {ms : List (Text × Json)} (h : ∀ m ∈ ms, Builds m.2)
    (members : List (Text × Json)) :
    (objectNext members around).run (spelledMembers ms ++ rest) =
      (place (.object (members.reverse ++ ms)) around).run rest := by
  induction ms generalizing members with
  | nil =>
    rw [List.append_nil]
    exact run_cons rfl
  | cons m ms ih =>
    obtain ⟨hv, hms⟩ := List.forall_mem_cons.1 h
    obtain ⟨name, v⟩ := m
    have hcomma : step (objectNext members around) .comma = some (objectKey members around) := rfl
    have hname : step (objectKey members around) (.text name) =
        some (objectColon members name around) := rfl
    simp only [spelledMembers, List.cons_append, List.append_assoc]
    rw [run_cons hcomma, run_cons hname, run_member hv, ih hms, List.reverse_cons,
      List.append_assoc, List.singleton_append]

theorem builds_of_readable (h : Readable v) : Builds v := by
  induction h with
  | null => exact builds_token rfl (by simp) fun _ ↦ rfl
  | bool b => exact builds_token rfl (by simp) fun _ ↦ rfl
  | number h => exact builds_token rfl (by simp) fun _ ↦ rfl
  | string s => exact builds_token rfl (by simp) fun _ ↦ rfl
  | @array items h ih =>
    intro b around rest hb
    have hopen : b.step .openArray = some (arrayStart around) := hb _ (by simp)
    cases items with
    | nil => exact (run_cons hopen).trans (run_cons rfl)
    | cons v vs =>
      obtain ⟨hv, hvs⟩ := List.forall_mem_cons.1 ih
      simp only [spelled, List.cons_append, List.append_assoc]
      rw [run_cons hopen, hv _ _ _ awaits_arrayStart, place, run_items hvs]
      rfl
  | @object members names h ih =>
    intro b around rest hb
    have hopen : b.step .openObject = some (objectStart around) := hb _ (by simp)
    cases members with
    | nil => exact (run_cons hopen).trans (run_cons rfl)
    | cons m ms =>
      obtain ⟨hv, hms⟩ := List.forall_mem_cons.1 ih
      obtain ⟨name, v⟩ := m
      have hname : step (objectStart around) (.text name) = some (objectColon [] name around) := rfl
      simp only [spelled, List.cons_append, List.append_assoc]
      rw [run_cons hopen, run_cons hname, run_member hv, run_members hms]
      rfl

end Builder

theorem ofTokens_spelled {v : Json} (h : Readable v) : ofTokens (spelled v) = some v := by
  have hrun := Builder.builds_of_readable h (.value []) [] [] Builder.awaits_value
  rw [List.append_nil] at hrun
  change Builder.run (.value []) (spelled v) >>= _ = _
  rw [hrun]
  rfl

/-- Whatever blanks a layout sets between the parts, the value is read back. -/
theorem parse_write {l : Layout} (hl : l.Blank) {v : Json} (h : Readable v) (depth : Nat) :
    parse (String.ofList (v.write l depth)) = some v := by
  rw [parse, String.toList_ofList, tokens_write hl h]
  exact ofTokens_spelled h

theorem parse_pretty {v : Json} (h : Readable v) : parse v.pretty = some v :=
  parse_write Layout.blank_pretty h 0

end AdaptiveRate.Json
