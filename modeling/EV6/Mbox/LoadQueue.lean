import EV6.Fault.Breach
import EV6.Word.Basic

namespace EV6

structure LoadEntry where
  seq : Nat
  va : Word
  pa : Word
  width : Width
  raw : Word
  /-- The poll from which on the data can be delivered. -/
  readyAt : Nat
  deriving DecidableEq, Repr

def LoadEntry.footprint : Nat := 48

structure LoadQueue where
  slots : List (Option LoadEntry)
  count : Nat
  deriving DecidableEq, Repr

namespace LoadQueue

def ofSize (capacity : Nat) : LoadQueue := ⟨List.replicate capacity none, 0⟩

def build (capacity : Nat) : Except Breach LoadQueue :=
  (Machine.reserve capacity LoadEntry.footprint).map fun _ => ofSize capacity

def capacity (q : LoadQueue) : Nat := q.slots.length

def size (q : LoadQueue) : Nat := q.count

def get (q : LoadQueue) (slot : Nat) : Option LoadEntry := q.slots[slot]?.join

def put (q : LoadQueue) (slot : Nat) (entry : LoadEntry) : LoadQueue :=
  ⟨q.slots.set slot (some entry), q.count + 1⟩

def free (q : LoadQueue) (slot : Nat) : LoadQueue := ⟨q.slots.set slot none, q.count - 1⟩

def freeSlot (q : LoadQueue) (seq : Nat) : Except Breach Nat :=
  match q.slots.findIdx? Option.isNone with
  | some slot => .ok slot
  | none => .error (.loadQueueFull seq)

def allocate (q : LoadQueue) (entry : LoadEntry) : Except Breach (Nat × LoadQueue) := do
  let slot ← q.freeSlot entry.seq
  return (slot, q.put slot entry)

def release (q : LoadQueue) (slot : Nat) : Except Breach (LoadEntry × LoadQueue) :=
  match q.get slot with
  | some entry => .ok (entry, q.free slot)
  | none => .error (.loadSlotFree slot)

def modify (q : LoadQueue) (slot : Nat) (f : LoadEntry → LoadEntry) : LoadQueue :=
  { q with slots := q.slots.modify slot fun s => s.map f }

def isYounger (seq : Nat) (slot : Option LoadEntry) : Bool := slot.any (seq ≤ ·.seq)

def squash (q : LoadQueue) (seq : Nat) : Nat × LoadQueue :=
  let freed := q.slots.countP (isYounger seq)
  (freed, ⟨q.slots.map fun s => if isYounger seq s then none else s, q.count - freed⟩)

def clear (q : LoadQueue) : LoadQueue := ofSize q.capacity

end LoadQueue

end EV6
