import AdaptiveRate.Json.Reader
import AdaptiveRate.Proofs.Json.Numeral

namespace AdaptiveRate.Json

/-- Values whose numerals, strings and names can be spelled. -/
inductive Readable : Json → Prop
  | null : Readable .null
  | bool (b : Bool) : Readable (.bool b)
  | number {n : Numeral} (h : n.Plain) : Readable (.number n)
  | string (s : String) : Readable (.string (some s))
  | array {items : List Json} (h : ∀ v ∈ items, Readable v) : Readable (.array items)
  | object {members : List (Text × Json)} (names : ∀ m ∈ members, ∃ name, m.1 = some name)
    (h : ∀ m ∈ members, Readable m.2) : Readable (.object members)

mutual

def spelled : Json → List Token
  | .array [] => [.openArray, .closeArray]
  | .array (v :: vs) => .openArray :: spelled v ++ spelledItems vs
  | .object [] => [.openObject, .closeObject]
  | .object ((k, v) :: ms) =>
    .openObject :: .text k :: .colon :: spelled v ++ spelledMembers ms
  | .string t => [.text t]
  | v => [.atom v]

def spelledItems : List Json → List Token
  | [] => [.closeArray]
  | v :: vs => .comma :: spelled v ++ spelledItems vs

def spelledMembers : List (Text × Json) → List Token
  | [] => [.closeObject]
  | (k, v) :: ms => .comma :: .text k :: .colon :: spelled v ++ spelledMembers ms

end

structure Layout.Blank (l : Layout) : Prop where
  line : ∀ depth, ∀ c ∈ l.line depth, Lexer.isBlank c = true
  colon : ∃ blanks, l.colon = ':' :: blanks ∧ ∀ c ∈ blanks, Lexer.isBlank c = true

theorem Layout.blank_pretty : Layout.pretty.Blank where
  line := by
    intro depth c hc
    rcases List.mem_cons.1 hc with rfl | hspace
    · rfl
    · rw [List.eq_of_mem_replicate hspace]
      rfl
  colon := ⟨[' '], rfl, fun c hc ↦ by rw [List.mem_singleton.1 hc]; rfl⟩

namespace Lexer

variable {ts : List Token} {rest word : List Char} {c : Char} {q : Quoted} {l : Layout}

def run (l : Lexer) (cs : List Char) : Option (List Token) := (cs.foldlM step l).bind finish

theorem run_cons {l l' : Lexer} (h : l.step c = some l') : l.run (c :: rest) = l'.run rest := by
  rw [run, List.foldlM_cons, h]
  rfl

theorem run_mark {t : Token} (h : mark c = some t) :
    run ⟨ts, .outside []⟩ (c :: rest) = run ⟨t :: ts, .outside []⟩ rest := by
  apply run_cons
  simp only [step, stepOutside, h]
  rfl

theorem not_mark_of_isBlank (h : isBlank c = true) : mark c = none := by
  simp only [isBlank, Bool.or_eq_true, decide_eq_true_eq] at h
  rcases h with ((rfl | rfl) | rfl) | rfl <;> rfl

theorem run_blanks {blanks : List Char} (h : ∀ c ∈ blanks, isBlank c = true) :
    run ⟨ts, .outside []⟩ (blanks ++ rest) = run ⟨ts, .outside []⟩ rest := by
  induction blanks with
  | nil => rfl
  | cons c cs ih =>
    obtain ⟨hc, hcs⟩ := List.forall_mem_cons.1 h
    rw [List.cons_append, ← ih hcs]
    apply run_cons
    simp only [step, stepOutside, not_mark_of_isBlank hc, hc, if_true]
    rfl

structure WordChar (c : Char) : Prop where
  not_mark : mark c = none
  not_blank : isBlank c = false
  not_quote : c ≠ '"'

def Delimited (rest : List Char) : Prop :=
  ∀ c ∈ rest.head?, mark c ≠ none ∨ isBlank c = true

theorem run_word_chars (h : ∀ c ∈ word, WordChar c) (before : List Char) :
    run ⟨ts, .outside before⟩ (word ++ rest) =
      run ⟨ts, .outside (word.reverse ++ before)⟩ rest := by
  induction word generalizing before with
  | nil => rfl
  | cons c cs ih =>
    obtain ⟨hc, hcs⟩ := List.forall_mem_cons.1 h
    rw [List.cons_append, List.reverse_cons, List.append_assoc, List.singleton_append, ← ih hcs]
    apply run_cons
    simp only [step, stepOutside, hc.not_mark, hc.not_blank, hc.not_quote, Bool.false_eq_true,
      if_false]

/-- A word ends where something delimits it. -/
theorem run_word {v : Json} (h : ∀ c ∈ word, WordChar c) (hne : word ≠ [])
    (hread : readWord word = some v) (hrest : Delimited rest) :
    run ⟨ts, .outside []⟩ (word ++ rest) = run ⟨.atom v :: ts, .outside []⟩ rest := by
  have hempty : word.reverse.isEmpty = false := by
    rw [List.isEmpty_eq_false_iff]
    exact mt List.reverse_eq_nil_iff.1 hne
  have hflush : flush ts word.reverse = some (.atom v :: ts) := by
    rw [flush, hempty, List.reverse_reverse, hread]
    rfl
  rw [run_word_chars h, List.append_nil]
  cases rest with
  | nil =>
    simp only [run, List.foldlM_nil]
    change (flush ts word.reverse).map List.reverse = (flush (.atom v :: ts) []).map List.reverse
    rw [hflush]
    rfl
  | cons c cs =>
    have hnext : flush (.atom v :: ts) [] = some (.atom v :: ts) := rfl
    have hsame : step ⟨ts, .outside word.reverse⟩ c = step ⟨.atom v :: ts, .outside []⟩ c := by
      simp only [step, stepOutside, hflush, hnext]
      cases hmark : mark c with
      | some t => rfl
      | none =>
        have hblank := (hrest c rfl).resolve_left (not_not.2 hmark)
        rw [if_pos hblank, if_pos hblank]
    rw [run, run, List.foldlM_cons, List.foldlM_cons, hsame]

section Strings

theorem hexDigit_digitChar : ∀ d < 16, hexDigit (Nat.digitChar d) = some d := by decide

theorem run_unit (hc : c.toNat < 32) :
    run ⟨ts, .inside q⟩ (['\\', 'u', '0', '0', Nat.digitChar (c.toNat / 16),
      Nat.digitChar (c.toNat % 16)] ++ rest) = run ⟨ts, .inside (q.push c)⟩ rest := by
  have hhigh := hexDigit_digitChar (c.toNat / 16) (by omega)
  have hlow := hexDigit_digitChar (c.toNat % 16) (by omega)
  have hvalue : 16 * (c.toNat / 16) + c.toNat % 16 = c.toNat := Nat.div_add_mod _ _
  have hunit : q.pushUnit c.toNat = q.push c := by
    have hplane : ¬ (0xD800 ≤ c.toNat) ∧ ¬ (0xDC00 ≤ c.toNat) := by omega
    simp only [Quoted.pushUnit, hplane, decide_false, Bool.false_and, Bool.false_eq_true, if_false,
      Char.ofNat_toNat]
  calc run ⟨ts, .inside q⟩ (['\\', 'u', '0', '0', Nat.digitChar (c.toNat / 16),
        Nat.digitChar (c.toNat % 16)] ++ rest)
      = run ⟨ts, .unit q 2 0⟩ (Nat.digitChar (c.toNat / 16) :: Nat.digitChar (c.toNat % 16) ::
          rest) := rfl
    _ = run ⟨ts, .unit q 3 (c.toNat / 16)⟩ (Nat.digitChar (c.toNat % 16) :: rest) := by
        apply run_cons
        simp [step, hhigh]
    _ = run ⟨ts, .inside (q.push c)⟩ rest := by
        apply run_cons
        simp [step, hlow, hvalue, hunit]

theorem run_escape (c : Char) : run ⟨ts, .inside q⟩ (escape c ++ rest) =
    run ⟨ts, .inside (q.push c)⟩ rest := by
  unfold escape
  split
  · rfl
  · rfl
  · rfl
  · rfl
  · rfl
  · rfl
  · rfl
  · split
    · next hc => exact run_unit hc
    · next hquote hbackslash _ _ _ _ _ hc =>
      apply run_cons
      simp only [step, if_neg hquote, if_neg hbackslash, if_neg hc]

theorem run_escapes (cs before : List Char) :
    run ⟨ts, .inside ⟨before, true, none⟩⟩ (cs.flatMap escape ++ rest) =
      run ⟨ts, .inside ⟨cs.reverse ++ before, true, none⟩⟩ rest := by
  induction cs generalizing before with
  | nil => rfl
  | cons c cs ih =>
    rw [List.flatMap_cons, List.append_assoc, run_escape, List.reverse_cons, List.append_assoc,
      List.singleton_append]
    exact ih (c :: before)

theorem run_quote (s : String) : run ⟨ts, .outside []⟩ (quote (some s) ++ rest) =
    run ⟨.text (some s) :: ts, .outside []⟩ rest := by
  have htext : Quoted.text ⟨s.toList.reverse ++ [], true, none⟩ = some s := by
    simp [Quoted.text]
  rw [quote, List.cons_append, List.cons_append, List.append_assoc]
  calc run ⟨ts, .outside []⟩ ('"' :: (s.toList.flatMap escape ++ (['"'] ++ rest)))
      = run ⟨ts, .inside .empty⟩ (s.toList.flatMap escape ++ (['"'] ++ rest)) := rfl
    _ = run ⟨ts, .inside ⟨s.toList.reverse ++ [], true, none⟩⟩ ('"' :: rest) := run_escapes _ []
    _ = run ⟨.text (some s) :: ts, .outside []⟩ rest := by
        apply run_cons
        simp only [step, if_true, htext]

end Strings

section Words

theorem wordChar_of_isAlphanum (h : c.isAlphanum = true) : WordChar c := by
  have hne : ∀ m, m.isAlphanum = false → c ≠ m := by
    rintro m hm rfl
    rw [hm] at h
    cases h
  refine ⟨?_, ?_, hne _ rfl⟩
  · unfold mark
    split
    · exact absurd rfl (hne _ rfl)
    · exact absurd rfl (hne _ rfl)
    · exact absurd rfl (hne _ rfl)
    · exact absurd rfl (hne _ rfl)
    · exact absurd rfl (hne _ rfl)
    · exact absurd rfl (hne _ rfl)
    · rfl
  · simp only [isBlank, hne ' ' rfl, hne '\n' rfl, hne '\r' rfl, hne '\t' rfl, decide_false,
      Bool.or_self]

theorem wordChar_of_isDigit (h : c.isDigit = true) : WordChar c :=
  wordChar_of_isAlphanum (by rw [Char.isAlphanum, h, Bool.or_true])

theorem run_letters {v : Json} (hword : word.all Char.isAlphanum = true) (hne : word ≠ [])
    (hread : readWord word = some v) (hrest : Delimited rest) :
    run ⟨ts, .outside []⟩ (word ++ rest) = run ⟨.atom v :: ts, .outside []⟩ rest :=
  run_word (fun c hc ↦ wordChar_of_isAlphanum (List.all_eq_true.1 hword c hc)) hne hread hrest

theorem wordChar_of_mem_exponentPart {e : Option Int} (hc : c ∈ Numeral.exponentPart e) :
    WordChar c := by
  cases e with
  | none => cases hc
  | some e =>
    rcases List.mem_cons.1 hc with rfl | hc
    · exact ⟨rfl, rfl, by decide⟩
    · rcases List.mem_cons.1 hc with rfl | hdigit
      · split
        · exact ⟨rfl, rfl, by decide⟩
        · exact ⟨rfl, rfl, by decide⟩
      · exact wordChar_of_isDigit (Numeral.isDigit_toDigits hdigit)

theorem wordChar_of_mem_write {n : Numeral} (h : n.Plain) (hc : c ∈ n.write) : WordChar c := by
  rw [Numeral.write_eq, List.mem_append, List.mem_append, List.mem_append] at hc
  rcases hc with hsign | hwhole | hfraction | hexponent
  · split at hsign
    · rw [List.mem_singleton.1 hsign]
      exact ⟨rfl, rfl, by decide⟩
    · cases hsign
  · exact wordChar_of_isDigit (Numeral.isDigit_toDigits hwhole)
  · split at hfraction
    · cases hfraction
    · rcases List.mem_cons.1 hfraction with rfl | hdigit
      · exact ⟨rfl, rfl, by decide⟩
      · exact wordChar_of_isDigit (h c hdigit)
  · exact wordChar_of_mem_exponentPart hexponent

theorem run_numeral {n : Numeral} (h : n.Plain) (hrest : Delimited rest) :
    run ⟨ts, .outside []⟩ (n.write ++ rest) = run ⟨.atom (.number n) :: ts, .outside []⟩ rest := by
  -- Other words are not read as numerals, and this one is.
  have hne : ∀ word, Numeral.read word = none → n.write ≠ word := by
    rintro _ hread rfl
    rw [Numeral.read_write h] at hread
    cases hread
  apply run_word (fun c hc ↦ wordChar_of_mem_write h hc) (hne _ rfl) _ hrest
  rw [readWord, if_neg (hne _ (by decide)), if_neg (hne _ (by decide)), if_neg (hne _ (by decide)),
    Numeral.read_write h]
  rfl

end Words

section Values

variable {depth : Nat} {vs : List Json} {ms : List (Text × Json)}

def Runs (l : Layout) (v : Json) : Prop := ∀ ts rest depth, Delimited rest →
  run ⟨ts, .outside []⟩ (v.write l depth ++ rest) =
    run ⟨(spelled v).reverse ++ ts, .outside []⟩ rest

theorem delimited_mark {t : Token} (h : mark c = some t) : Delimited (c :: rest) := by
  intro d hd
  obtain rfl : c = d := Option.some.inj hd
  exact .inl (by rw [h]; exact Option.some_ne_none t)

variable (hl : l.Blank)

include hl

theorem delimited_line (hrest : Delimited rest) : Delimited (l.line depth ++ rest) := by
  have hblank := hl.line depth
  cases hline : l.line depth with
  | nil => exact hrest
  | cons c cs =>
    intro d hd
    obtain rfl : c = d := Option.some.inj hd
    exact .inr (hblank c (hline ▸ List.mem_cons_self))

theorem run_line : run ⟨ts, .outside []⟩ (l.line depth ++ rest) = run ⟨ts, .outside []⟩ rest :=
  run_blanks (hl.line depth)

theorem run_colon : run ⟨ts, .outside []⟩ (l.colon ++ rest) =
    run ⟨.colon :: ts, .outside []⟩ rest := by
  obtain ⟨blanks, heq, hblanks⟩ := hl.colon
  rw [heq, List.cons_append, run_mark (t := .colon) rfl]
  exact run_blanks hblanks

theorem delimited_items : Delimited (writeItems l depth vs ++ rest) := by
  cases vs with
  | nil =>
    rw [writeItems, List.append_assoc]
    exact delimited_line hl (delimited_mark (t := .closeArray) rfl)
  | cons v vs =>
    rw [writeItems]
    exact delimited_mark (t := .comma) rfl

theorem delimited_members : Delimited (writeMembers l depth ms ++ rest) := by
  cases ms with
  | nil =>
    rw [writeMembers, List.append_assoc]
    exact delimited_line hl (delimited_mark (t := .closeObject) rfl)
  | cons m ms =>
    obtain ⟨k, v⟩ := m
    rw [writeMembers]
    exact delimited_mark (t := .comma) rfl

theorem run_items (h : ∀ v ∈ vs, Runs l v) :
    run ⟨ts, .outside []⟩ (writeItems l depth vs ++ rest) =
      run ⟨(spelledItems vs).reverse ++ ts, .outside []⟩ rest := by
  induction vs generalizing ts with
  | nil =>
    rw [writeItems, List.append_assoc, run_line hl]
    exact run_mark rfl
  | cons v vs ih =>
    obtain ⟨hv, hvs⟩ := List.forall_mem_cons.1 h
    have hcomma : mark ',' = some .comma := rfl
    simp only [writeItems, spelledItems, List.cons_append, List.append_assoc]
    rw [run_mark hcomma, run_line hl, hv _ _ _ (delimited_items hl), ih hvs]
    simp only [List.reverse_cons, List.reverse_append, List.append_assoc, List.cons_append,
      List.nil_append]

theorem run_members (hnames : ∀ m ∈ ms, ∃ name, m.1 = some name) (h : ∀ m ∈ ms, Runs l m.2) :
    run ⟨ts, .outside []⟩ (writeMembers l depth ms ++ rest) =
      run ⟨(spelledMembers ms).reverse ++ ts, .outside []⟩ rest := by
  induction ms generalizing ts with
  | nil =>
    rw [writeMembers, List.append_assoc, run_line hl]
    exact run_mark rfl
  | cons m ms ih =>
    obtain ⟨⟨name, hname⟩, hothers⟩ := List.forall_mem_cons.1 hnames
    obtain ⟨hv, hms⟩ := List.forall_mem_cons.1 h
    obtain ⟨k, v⟩ := m
    obtain rfl : k = some name := hname
    have hcomma : mark ',' = some .comma := rfl
    simp only [writeMembers, spelledMembers, List.cons_append, List.append_assoc]
    rw [run_mark hcomma, run_line hl, run_quote, run_colon hl, hv _ _ _ (delimited_members hl),
      ih hothers hms]
    simp only [List.reverse_cons, List.reverse_append, List.append_assoc, List.cons_append,
      List.nil_append]

theorem runs_of_readable {v : Json} (h : Readable v) : Runs l v := by
  induction h with
  | null => exact fun ts rest depth hrest ↦ run_letters rfl (List.cons_ne_nil _ _) rfl hrest
  | bool b =>
    intro ts rest depth hrest
    cases b
    · exact run_letters rfl (List.cons_ne_nil _ _) rfl hrest
    · exact run_letters rfl (List.cons_ne_nil _ _) rfl hrest
  | number h => exact fun ts rest depth hrest ↦ run_numeral h hrest
  | string s => exact fun ts rest depth hrest ↦ run_quote s
  | @array items h ih =>
    intro ts rest depth hrest
    have hopen : mark '[' = some .openArray := rfl
    cases items with
    | nil => exact (run_mark hopen).trans (run_mark rfl)
    | cons v vs =>
      obtain ⟨hv, hvs⟩ := List.forall_mem_cons.1 ih
      simp only [write, spelled, List.cons_append, List.append_assoc]
      rw [run_mark hopen, run_line hl, hv _ _ _ (delimited_items hl), run_items hl hvs]
      simp only [List.reverse_cons, List.reverse_append, List.append_assoc, List.cons_append,
        List.nil_append]
  | @object members names h ih =>
    intro ts rest depth hrest
    have hopen : mark '\x7b' = some .openObject := rfl
    cases members with
    | nil => exact (run_mark hopen).trans (run_mark rfl)
    | cons m ms =>
      obtain ⟨⟨name, hname⟩, hnames⟩ := List.forall_mem_cons.1 names
      obtain ⟨hv, hms⟩ := List.forall_mem_cons.1 ih
      obtain ⟨k, v⟩ := m
      obtain rfl : k = some name := hname
      simp only [write, spelled, List.cons_append, List.append_assoc]
      rw [run_mark hopen, run_line hl, run_quote, run_colon hl, hv _ _ _ (delimited_members hl),
        run_members hl hnames hms]
      simp only [List.reverse_cons, List.reverse_append, List.append_assoc, List.cons_append,
        List.nil_append]

end Values

end Lexer

theorem tokens_write {l : Layout} (hl : l.Blank) {v : Json} (h : Readable v) (depth : Nat) :
    tokens (v.write l depth) = some (spelled v) := by
  have hrun := Lexer.runs_of_readable hl h [] [] depth fun c hc ↦ by cases hc
  rw [List.append_nil, List.append_nil] at hrun
  have hfinish : Lexer.run ⟨(spelled v).reverse, .outside []⟩ [] = some (spelled v) :=
    congrArg some (List.reverse_reverse _)
  exact hrun.trans hfinish

end AdaptiveRate.Json
