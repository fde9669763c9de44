import AdaptiveRate.KeyMap

namespace AdaptiveRate

/-- A lock is handed on to the first in line as soon as it is given up; the new owner holds it from
its next poll on. -/
structure Mutex (σ : Type) where
  owner : Option σ
  line : List σ
  deriving DecidableEq

structure Ticket (κ : Type) where
  key : κ
  mutex : Nat
  held : Bool
  deriving DecidableEq

inductive SlotState
  | idle
  | waiting
  | held
  deriving DecidableEq

/-- Fair locks, one for each key, that exist only while they are in use. Whoever takes part does so
from a slot, which holds the lock of one key, waits for it, or stands idle. -/
structure LockTable (σ κ : Type) where
  /-- The lock that newcomers to a key are sent to. -/
  table : KeyMap κ Nat
  mutexes : KeyMap Nat (Mutex σ)
  tickets : KeyMap σ (Ticket κ)
  fresh : Nat

namespace Mutex

variable {σ : Type} [DecidableEq σ]

def free : Mutex σ := ⟨none, []⟩

def handOn (m : Mutex σ) : Mutex σ := ⟨m.line.head?, m.line.tail⟩

def enter (m : Mutex σ) (s : σ) : Mutex σ :=
  if m.owner.isNone then { m with owner := some s } else { m with line := m.line ++ [s] }

def leave (m : Mutex σ) (s : σ) : Mutex σ :=
  if m.owner = some s then m.handOn else { m with line := m.line.erase s }

end Mutex

namespace LockTable

variable {σ κ : Type} [DecidableEq σ] [DecidableEq κ]

def empty : LockTable σ κ := ⟨.empty, .empty, .empty, 0⟩

def size (t : LockTable σ κ) : Nat := t.table.size

def isEmpty (t : LockTable σ κ) : Bool := t.size == 0

def state (t : LockTable σ κ) (s : σ) : SlotState :=
  match t.tickets.get? s with
  | none => .idle
  | some ticket => if ticket.held then .held else .waiting

def mutex (t : LockTable σ κ) (id : Nat) : Mutex σ := (t.mutexes.get? id).getD .free

def inUse (t : LockTable σ κ) (id : Nat) : Bool := t.tickets.values.any (·.mutex == id)

def release (t : LockTable σ κ) (key : κ) : LockTable σ κ :=
  match t.table.get? key with
  | some id =>
    if t.inUse id then t
    else { t with table := t.table.erase key, mutexes := t.mutexes.erase id }
  | none => t

/-- A slot gives up what it has. Only giving up a lock that was held looks for an unused lock to
drop, leaving the line does not. -/
def drop (t : LockTable σ κ) (s : σ) : LockTable σ κ :=
  match t.tickets.get? s with
  | none => t
  | some ticket =>
    let left : LockTable σ κ :=
      { t with
        mutexes := t.mutexes.modify ticket.mutex (·.leave s)
        tickets := t.tickets.erase s }
    if ticket.held then left.release ticket.key else left

def enter (t : LockTable σ κ) (s : σ) (key : κ) (id : Nat) : LockTable σ κ :=
  { t with
    mutexes := t.mutexes.insert id ((t.mutex id).enter s)
    tickets := t.tickets.insert s ⟨key, id, (t.mutex id).owner.isNone⟩ }

def acquire (t : LockTable σ κ) (s : σ) (key : κ) : LockTable σ κ :=
  let t := t.drop s
  match t.table.get? key with
  | some id => t.enter s key id
  | none => { t with table := t.table.insert key t.fresh, fresh := t.fresh + 1 }.enter s key t.fresh

def poll (t : LockTable σ κ) (s : σ) : LockTable σ κ :=
  match t.tickets.get? s with
  | none => t
  | some ticket =>
    if (t.mutex ticket.mutex).owner = some s then
      { t with tickets := t.tickets.modify s fun ticket ↦ { ticket with held := true } }
    else t

inductive Step (σ κ : Type)
  | acquire (slot : σ) (key : κ)
  | poll (slot : σ)
  | drop (slot : σ)

def step (t : LockTable σ κ) : Step σ κ → LockTable σ κ
  | .acquire s key => t.acquire s key
  | .poll s => t.poll s
  | .drop s => t.drop s

end LockTable

end AdaptiveRate
