import AdaptiveRate.Frame

namespace AdaptiveRate.History

structure Ring where
  capacity : Nat
  slots : Array Frame
  /-- Slot of the oldest frame once the ring is full. -/
  head : Nat
  evictions : Nat
  head_lt : head < capacity
  size_le : slots.size ≤ capacity
  head_eq : slots.size < capacity → head = 0

namespace Ring

def frameBytes : Nat := 12

/-- Storage is reserved when a ring is made, and no more than this can be. -/
def maxBytes : Nat := UInt64.size / 2 - 1

/-- An empty ring for at least one frame. -/
def make? (capacity : Nat) : Option Ring :=
  if maxBytes < max capacity 1 * frameBytes then none
  else some
    { capacity := max capacity 1
      slots := #[]
      head := 0
      evictions := 0
      head_lt := by omega
      size_le := by simp
      head_eq := fun _ ↦ rfl }

def push (r : Ring) (frame : Frame) : Ring :=
  match r with
  | ⟨capacity, slots, head, evictions, head_lt, size_le, head_eq⟩ =>
    if h : slots.size < capacity then
      ⟨capacity, slots.push frame, head, evictions, head_lt,
        by rw [Array.size_push]; exact h, fun _ ↦ head_eq h⟩
    else
      ⟨capacity, slots.set head frame (by omega), (head + 1) % capacity, evictions + 1,
        Nat.mod_lt _ (by omega), by simpa using size_le,
        fun h' ↦ absurd (by simpa using h') h⟩

/-- Evictions are counted in 64 bits, and the next frame would evict one too many. -/
def overflows (r : Ring) : Bool := r.capacity ≤ r.slots.size && UInt64.size ≤ r.evictions + 1

def toList (r : Ring) : List Frame := r.slots.toList.drop r.head ++ r.slots.toList.take r.head

/-- Forgets the frames but not how many were evicted. -/
def clear (r : Ring) : Ring :=
  { r with
    slots := #[]
    head := 0
    head_lt := Nat.lt_of_le_of_lt (Nat.zero_le _) r.head_lt
    size_le := by simp
    head_eq := fun _ ↦ rfl }

def length (r : Ring) : Nat := r.slots.size

def isEmpty (r : Ring) : Bool := r.slots.isEmpty

end Ring

end AdaptiveRate.History
