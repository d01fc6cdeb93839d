import EV6.Core.Memory
/-!
An instruction in execution on a core, and its accesses to memory. The instruction keeps what an
access left in it even when the access faults.
-/

namespace EV6

structure Execution (π : Type) where
  core : Core π
  instruction : Instruction

abbrev ExecutionStep (π : Type) := Step (Execution π) Fault

namespace Execution

variable {π : Type}

def onCore {α : Type} (x : CoreStep π α) : ExecutionStep π α :=
  x.onPart core fun core e => { e with core }

def update (f : Instruction → Instruction) : ExecutionStep π Unit :=
  modify fun e => { e with instruction := f e.instruction }

def writeInt (value : Word) : ExecutionStep π Unit := update (·.withInt value)

def address (i : Instruction) : Word := i.a + i.displacement

def issue [BlockDevice π] (va pa : Word) (width : Width) : ExecutionStep π Unit := do
  let e ← get
  let i ← onCore (Core.issueLoad e.instruction va pa width)
  update fun _ => i

def queue (va pa : Word) (width : Width) (data : Word) : ExecutionStep π Unit := do
  let e ← get
  let i ← onCore (Core.onMbox (Mbox.queueStore e.instruction va pa width data))
  update fun _ => i

def resolve (va : Word) (width : Width) (access : AccessKind) : ExecutionStep π Word := do
  let opcode := (← get).instruction.opcode
  onCore (Core.checkAlignment opcode va width (access == .write))
  let pa ← onCore (Core.translateData opcode va access)
  update fun i => { i with va := some va }
  return pa

def readVirtual [BlockDevice π] (va : Word) (width : Width) : ExecutionStep π Word := do
  let pa ← resolve va width .read
  issue va pa width
  return pa

def writeVirtual (va : Word) (width : Width) (data : Word) : ExecutionStep π Unit := do
  let pa ← resolve va width .write
  queue va pa width data

def readPhysical [BlockDevice π] (pa : Word) (width : Width) : ExecutionStep π Unit := do
  let opcode := (← get).instruction.opcode
  onCore (Core.checkAlignment opcode pa width false)
  issue pa (pa &&& Address.physicalMask) width

def writePhysical (pa : Word) (width : Width) (data : Word) : ExecutionStep π Unit := do
  let opcode := (← get).instruction.opcode
  onCore (Core.checkAlignment opcode pa width true)
  queue pa (pa &&& Address.physicalMask) width data

def setLock (lock : LockAction) : ExecutionStep π Unit := update fun i => { i with lock }

def storeConditional (store : ExecutionStep π Unit) : ExecutionStep π Unit := do
  setLock .clear
  if (← get).core.lock.held then
    store
    writeInt 1
  else writeInt 0

end Execution

end EV6
