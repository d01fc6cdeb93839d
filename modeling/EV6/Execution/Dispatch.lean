import EV6.Execution.Access
import EV6.Execution.Control
import EV6.Execution.Floating
import EV6.Execution.Pal
import EV6.Integer.Unit
/-!
Execution of an instruction. It may fault; then it has no result, and its record and the core keep
what was done up to there. Effects that must wait for the instructions before it are left in the
record for retirement.
-/

namespace EV6

open Execution

namespace IntegerOp

def execute {π : Type} (op : IntegerOp) (i : Instruction) (core : Core π) :
    Except Fault Instruction :=
  match op with
  | architectureMask => .ok (i.withInt (i.b &&& ~~~core.amask))
  | implementationVersion => .ok (i.withInt core.implver)
  | op =>
    (Integer.execute (.integer op) i.a i.b core.bigEndian).map fun
      | some value => i.withInt value
      | none => i

end IntegerOp

namespace MiscOp

variable {π : Type}

/-- Barriers have nothing to wait for, and hints have no effect. -/
def execute [BlockDevice π] : MiscOp → ExecutionStep π Unit
  | readCycleCounter => modify fun e =>
    { e with instruction := e.instruction.withInt e.core.iprs.cc }
  | readClearFlag => exchangeFlag false
  | readSetFlag => exchangeFlag true
  | evictBlock => do onCore (Core.evictBlock (← get).instruction.a)
  | trapBarrier | exceptionBarrier | memoryBarrier | writeBarrier | prefetch | prefetchModify
  | writeHint | writeHintEvict => pure ()
where
  exchangeFlag (value : Bool) : ExecutionStep π Unit := modify fun e =>
    { core := { e.core with interruptFlag := value }
      instruction := e.instruction.withInt (Word.ofBool e.core.interruptFlag) }

end MiscOp

namespace Execution

variable {π : Type}

def executeInteger (op : IntegerOp) : ExecutionStep π Unit := do
  let e ← get
  let i ← Step.ofExcept (op.execute e.instruction e.core)
  update fun _ => i

def executeFloat (op : FloatOp) : ExecutionStep π Unit := do
  let e ← get
  let effect := op.execute e.instruction e.core.control
  modify fun e => { e with core := { e.core with control := effect.control } }
  let value ← Step.ofExcept effect.result
  update fun i => { i with dest := value.getD i.dest }

def dispatch [BlockDevice π] (m : Mnemonic) : ExecutionStep π Unit := do
  if m.isPalOnly && !(← get).core.palMode then throw .opcodeReserved
  match m with
  | .reserved => throw .opcodeReserved
  | .pal op => op.execute
  | .address op => update op.execute
  | .load op => op.execute
  | .store op => op.execute
  | .control op => update op.execute
  | .misc op => op.execute
  | .float op => executeFloat op
  | .integer op => executeInteger op

def execute [BlockDevice π] : ExecutionStep π Unit := do
  update fun i => { i with state := .waitingRetirement }
  dispatch (← get).instruction.mnemonic

end Execution

namespace Core

def execute {π : Type} [BlockDevice π] (c : Core π) (i : Instruction) :
    Outcome (Execution π) Fault Unit :=
  Execution.execute ⟨c, i⟩

end Core

end EV6
