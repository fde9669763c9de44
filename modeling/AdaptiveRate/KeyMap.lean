namespace AdaptiveRate

structure KeyMap (κ α : Type) where
  entries : List (κ × α)
  nodup : (entries.map Prod.fst).Nodup

namespace KeyMap

variable {κ α : Type} [DecidableEq κ]

def empty : KeyMap κ α := ⟨[], by simp⟩

def size (m : KeyMap κ α) : Nat := m.entries.length

def values (m : KeyMap κ α) : List α := m.entries.map Prod.snd

def get? (m : KeyMap κ α) (k : κ) : Option α := (m.entries.find? (·.1 = k)).map Prod.snd

def erase (m : KeyMap κ α) (k : κ) : KeyMap κ α :=
  ⟨m.entries.filter (·.1 ≠ k), m.nodup.sublist (List.filter_sublist.map _)⟩

def insert (m : KeyMap κ α) (k : κ) (a : α) : KeyMap κ α where
  entries := (k, a) :: (m.erase k).entries
  nodup := List.nodup_cons.2 ⟨by simp [erase], (m.erase k).nodup⟩

def modifyEntry (k : κ) (f : α → α) : κ × α → κ × α
  | (k', a) => if k' = k then (k', f a) else (k', a)

def modify (m : KeyMap κ α) (k : κ) (f : α → α) : KeyMap κ α where
  entries := m.entries.map (modifyEntry k f)
  nodup := by
    have : Prod.fst ∘ modifyEntry k f = Prod.fst := by
      funext ⟨k', a⟩
      simp only [Function.comp_apply, modifyEntry]
      split <;> rfl
    rw [List.map_map, this]
    exact m.nodup

end KeyMap

end AdaptiveRate
