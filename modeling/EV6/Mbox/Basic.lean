import EV6.Cache.Hierarchy
import EV6.Isa.Instruction
import EV6.Mbox.LoadQueue
import EV6.Mbox.StoreQueue
/-!
The memory box: the queues of loads and stores over the memory hierarchy. A load reads the data
cache when it is issued and takes the bytes of older waiting stores from the queue; its data is
delivered at once or by a later poll. A store reaches the data cache when it retires.
-/

namespace EV6

structure Mbox (π : Type) where
  loads : LoadQueue
  stores : StoreQueue
  polls : Nat
  memory : MemoryHierarchy π

structure LoadIssue where
  access : Access
  forwarded : Bool
  deriving DecidableEq, Repr

namespace Instruction

def delivered (i : Instruction) (raw : Word) : Instruction :=
  { i with dest := i.completion.apply raw, slot := none }

end Instruction

namespace Mbox

variable {π ε : Type}

def ofConfig (c : Config) (port : π) : Except ConfigFailure (Mbox π) := do
  let memory ← MemoryHierarchy.ofConfig c port
  let loads ← ConfigFailure.ofBreach (LoadQueue.build c.mbox.loadQueue)
  let stores ← ConfigFailure.ofBreach (StoreQueue.build c.mbox.storeQueue)
  return { loads, stores, polls := 0, memory }

def onMemory {α : Type} (x : Step (MemoryHierarchy π) ε α) : Step (Mbox π) ε α :=
  x.onPart memory fun memory m => { m with memory }

def allocateLoad (entry : LoadEntry) : Step (Mbox π) ε Nat := do
  let m ← get
  let (slot, loads) ← Step.check (m.loads.allocate entry)
  set { m with loads }
  return slot

def releaseLoad (slot : Nat) : Step (Mbox π) ε Unit := do
  let m ← get
  let (_, loads) ← Step.check (m.loads.release slot)
  set { m with loads }

def answerLoad (i : Instruction) (slot : Nat) (access : Access) (f : StoreQueue.Forwarded) :
    Step (Mbox π) ε (Instruction × LoadIssue) := do
  let raw := Word.ofBytes f.block
  if access.latency = 0 then
    releaseLoad slot
    return (i.delivered raw, ⟨access, f.overlapped⟩)
  else
    let m ← get
    let readyAt ← Step.check (Machine.add m.polls access.latency)
    set { m with loads := m.loads.modify slot fun e => { e with raw, readyAt } }
    return ({ i with slot := some slot }, ⟨access, f.overlapped⟩)

def issueLoad [BlockDevice π] (i : Instruction) (va pa : Word) (width : Width) :
    Step (Mbox π) BusError (Instruction × LoadIssue) := do
  let slot ← allocateLoad { seq := i.seq, va, pa, width, raw := 0, readyAt := 0 }
  let (block, access) ←
    try onMemory (MemoryHierarchy.read pa width.bytes)
    catch e =>
      releaseLoad slot
      throw e
  let m ← get
  let f ← Step.check (m.stores.forward pa i.seq block)
  answerLoad i slot access f

def deliver (polls : Nat) (q : LoadQueue) (i : Instruction) : Option (Instruction × LoadQueue) := do
  let slot ← i.slot
  let entry ← q.get slot
  if entry.seq = i.seq && entry.readyAt ≤ polls then
    some (i.delivered entry.raw, q.free slot)
  else none

structure Delivery where
  completed : Nat
  instructions : List Instruction
  loads : LoadQueue
  deriving DecidableEq, Repr

def deliverAll (polls : Nat) : LoadQueue → List Instruction → Delivery
  | q, [] => ⟨0, [], q⟩
  | q, i :: rest =>
    match deliver polls q i with
    | some (j, q) =>
      let d := deliverAll polls q rest
      { d with completed := d.completed + 1, instructions := j :: d.instructions }
    | none =>
      let d := deliverAll polls q rest
      { d with instructions := i :: d.instructions }

def poll (m : Mbox π) (pending : List Instruction) : Delivery × Mbox π :=
  let polls := m.polls + 1
  let d := deliverAll polls m.loads pending
  (d, { m with polls, loads := d.loads })

def queueStore (i : Instruction) (va pa : Word) (width : Width) (data : Word) :
    Step (Mbox π) ε Instruction := do
  let m ← get
  let entry := { seq := i.seq, va, pa, data := data.zeroExtend width, width }
  let (slot, stores) ← Step.check (m.stores.allocate entry)
  set { m with stores }
  return { i with slot := some slot }

def retireStore [BlockDevice π] (slot : Nat) : Step (Mbox π) BusError (StoreEntry × Access) := do
  let m ← get
  let (entry, stores) ← Step.check (m.stores.retire slot)
  set { m with stores }
  let access ← onMemory (MemoryHierarchy.write entry.pa entry.bytes)
  return (entry, access)

def squash (m : Mbox π) (seq : Nat) : Mbox π :=
  { m with loads := (m.loads.squash seq).2, stores := (m.stores.squash seq).2 }

def clear (m : Mbox π) : Mbox π := { m with loads := m.loads.clear, stores := m.stores.clear }

end Mbox

end EV6
