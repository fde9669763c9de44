import AdaptiveRate.KeyMap

namespace AdaptiveRate.KeyMap

variable {κ α : Type} [DecidableEq κ] (m : KeyMap κ α)

theorem get?_eq_some_iff {k : κ} {a : α} : m.get? k = some a ↔ (k, a) ∈ m.entries := by
  obtain ⟨entries, nodup⟩ := m
  simp only [get?]
  induction entries with
  | nil => simp
  | cons e rest ih =>
    obtain ⟨k', a'⟩ := e
    obtain ⟨fresh, nodup⟩ := List.nodup_cons.1 nodup
    by_cases h : k' = k
    · subst h
      have hk : (k', a) ∉ rest := fun hm ↦ fresh (List.mem_map.2 ⟨_, hm, rfl⟩)
      simp [hk, eq_comm]
    · simp [h, Ne.symm h, ih nodup]

@[simp]
theorem get?_empty (k : κ) : (empty : KeyMap κ α).get? k = none := rfl

@[simp]
theorem get?_erase (k k' : κ) : (m.erase k).get? k' = if k' = k then none else m.get? k' := by
  simp only [get?, erase, List.find?_filter]
  split
  · next h => simp [h]
  · next h =>
    congr 2
    funext e
    by_cases he : e.1 = k' <;> simp [he, h]

variable {m} in
theorem get?_erase_eq_some_iff {k k' : κ} {a : α} :
    (m.erase k).get? k' = some a ↔ k' ≠ k ∧ m.get? k' = some a := by
  rw [get?_erase]
  split <;> simp [*]

@[simp]
theorem get?_insert (k k' : κ) (a : α) :
    (m.insert k a).get? k' = if k' = k then some a else m.get? k' := by
  by_cases h : k' = k
  · simp [get?, insert, h]
  · have he : (m.insert k a).get? k' = (m.erase k).get? k' := by
      simp [get?, insert, Ne.symm h]
    rw [he, get?_erase, if_neg h, if_neg h]

variable {m} in
theorem get?_insert_eq_some_iff {k k' : κ} {a a' : α} :
    (m.insert k a).get? k' = some a' ↔ k' = k ∧ a = a' ∨ k' ≠ k ∧ m.get? k' = some a' := by
  rw [get?_insert]
  split <;> simp [*]

@[simp]
theorem get?_modify (k k' : κ) (f : α → α) :
    (m.modify k f).get? k' = if k' = k then (m.get? k').map f else m.get? k' := by
  simp only [get?, modify, List.find?_map, Option.map_map]
  have hkey : (fun e : κ × α ↦ decide (e.1 = k')) ∘ modifyEntry k f =
      fun e ↦ decide (e.1 = k') := by
    funext e
    obtain ⟨k'', a⟩ := e
    simp only [Function.comp_apply, modifyEntry]
    split <;> rfl
  rw [hkey]
  cases hf : m.entries.find? (fun e ↦ decide (e.1 = k')) with
  | none => simp
  | some e =>
    have he : e.1 = k' := by simpa using List.find?_some hf
    obtain ⟨k'', a⟩ := e
    by_cases h : k'' = k <;> simp_all [modifyEntry]

theorem mem_values_iff {a : α} : a ∈ m.values ↔ ∃ k, m.get? k = some a := by
  simp [values, get?_eq_some_iff]

def keys : List κ := m.entries.map Prod.fst

omit [DecidableEq κ] in
theorem length_keys : m.keys.length = m.size := List.length_map _

theorem mem_keys_iff {k : κ} : k ∈ m.keys ↔ ∃ a, m.get? k = some a := by
  simp [keys, get?_eq_some_iff]

end AdaptiveRate.KeyMap
