import EV6.Fault.Breach
import EV6.Storage.Bytes
import EV6.Storage.Table
/-!
The stores that wait for retirement, in program order. They occupy consecutive slots of a ring; only
the oldest can retire. A load sees, in each of its bytes, the youngest store before it.
-/

namespace EV6

structure StoreEntry where
  seq : Nat
  va : Word
  pa : Word
  data : Word
  width : Width
  deriving DecidableEq, Repr

namespace StoreEntry

def footprint : Nat := 40

def bytes (e : StoreEntry) : List Byte := Word.toBytes e.data e.width.bytes

def stop (e : StoreEntry) : Except Breach Nat := Machine.add e.pa.toNat e.width.bytes

def overlay (e : StoreEntry) (stop start : Nat) (block : List Byte) : List Byte :=
  block.mapIdx fun i b =>
    if e.pa.toNat ≤ start + i && start + i < stop then e.data.byteAt (start + i - e.pa.toNat) else b

end StoreEntry

structure StoreQueue where
  capacity : Nat
  slots : Table (Option StoreEntry)
  head : Nat
  tail : Nat
  count : Nat

namespace StoreQueue

def ofSize (capacity : Nat) : StoreQueue := ⟨capacity, .ofBlank none, 0, 0, 0⟩

def build (capacity : Nat) : Except Breach StoreQueue :=
  (Machine.reserve capacity StoreEntry.footprint).map fun _ => ofSize capacity

def size (q : StoreQueue) : Nat := q.count

def isFull (q : StoreQueue) : Bool := q.count == q.capacity

def oldest (q : StoreQueue) : Option Nat := if 0 < q.count then some q.head else none

def get (q : StoreQueue) (slot : Nat) : Option StoreEntry :=
  if slot < q.capacity then q.slots.get slot else none

def next (q : StoreQueue) (slot : Nat) : Nat := (slot + 1) % q.capacity

def youngest (q : StoreQueue) : Nat := (q.tail + q.capacity - 1) % q.capacity

def allocate (q : StoreQueue) (entry : StoreEntry) : Except Breach (Nat × StoreQueue) :=
  if q.isFull then .error (.storeQueueFull entry.seq)
  else
    .ok (q.tail,
      { q with slots := q.slots.set q.tail (some entry), tail := q.next q.tail
               count := q.count + 1 })

def retire (q : StoreQueue) (slot : Nat) : Except Breach (StoreEntry × StoreQueue) :=
  match q.get slot with
  | some e =>
    if slot = q.head then
      .ok (e, { q with slots := q.slots.set slot none, head := q.next q.head, count := q.count - 1 })
    else .error (.storeOutOfOrder slot)
  | none => .error (.storeOutOfOrder slot)

def dropYoungest (q : StoreQueue) : StoreQueue :=
  { q with slots := q.slots.set q.youngest none, tail := q.youngest, count := q.count - 1 }

def squashLoop (seq : Nat) : Nat → StoreQueue → Nat × StoreQueue
  | 0, q => (0, q)
  | n + 1, q =>
    match q.slots.get q.youngest with
    | some e =>
      if seq ≤ e.seq then
        let (dropped, q) := squashLoop seq n q.dropYoungest
        (dropped + 1, q)
      else (0, q)
    | none => (0, q)

def squash (q : StoreQueue) (seq : Nat) : Nat × StoreQueue := squashLoop seq q.count q

def clear (q : StoreQueue) : StoreQueue := ofSize q.capacity

def slotsFrom (q : StoreQueue) : Nat → Nat → List Nat
  | _, 0 => []
  | slot, n + 1 => slot :: q.slotsFrom (q.next slot) n

def entries (q : StoreQueue) : List StoreEntry :=
  (q.slotsFrom q.head q.count).filterMap q.slots.get

structure Forwarded where
  overlapped : Bool
  block : List Byte
  deriving DecidableEq, Repr

def forwardOne (start stop seq : Nat) (f : Forwarded) (e : StoreEntry) :
    Except Breach Forwarded := do
  if e.seq < seq then
    let storeStop ← e.stop
    if start < storeStop && e.pa.toNat < stop then
      return ⟨true, e.overlay storeStop start f.block⟩
    else return f
  else return f

def forward (q : StoreQueue) (pa : Word) (seq : Nat) (block : List Byte) :
    Except Breach Forwarded := do
  let stop ← Machine.add pa.toNat block.length
  q.entries.foldlM (forwardOne pa.toNat stop seq) ⟨false, block⟩

end StoreQueue

end EV6
