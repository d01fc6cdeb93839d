import EV6.Core.Privileged
import EV6.Execution.Basic
/-!
CALL_PAL and the instructions of PALcode: moves of internal registers, accesses to physical memory,
and the return. What changes the mode happens at retirement.
-/

namespace EV6

open Execution

inductive PalAccess where
  | physical
  /-- With the lock: a load sets it, and a store needs it. -/
  | physicalLocked
  | virtual
  deriving DecidableEq, Repr

namespace PalAccess

def ofFunction (function : Longword) : PalAccess :=
  match function.toNat / 2 % 8 with
  | 0 => physical
  | 1 => physicalLocked
  | _ => virtual

def widthOf (function : Longword) : Width := if function.getLsbD 0 then .quad else .long

end PalAccess

namespace PalOp

variable {π : Type}

def callOffset (function : Longword) (mode : ProcessorMode) : Option Nat :=
  let f := function.toNat
  if f ≤ 0x3F && mode = .kernel then some 0x2000
  else if 0x80 ≤ f && f ≤ 0xBF then some 0x3000
  else none

def callTarget (base : Word) (offset : Nat) (function : Longword) : Except Breach Word := do
  let target ← Machine.add base.toNat offset
  let target ← Machine.add target (function.toNat % 0x40 * 0x40)
  return BitVec.ofNat 64 target

def enterCall : ExecutionStep π Unit := do
  let e ← get
  match callOffset e.instruction.function e.core.mode with
  | none => throw .opcodeReserved
  | some offset =>
    let target ← Step.check (callTarget e.core.iprs.palBase offset e.instruction.function)
    update fun i => { i with branch := some ⟨true, target⟩ }

def registerIndex (i : Instruction) : Nat := i.function.toNat / 0x100 % 0x100

def loadMemory [BlockDevice π] : ExecutionStep π Unit := do
  let i := (← get).instruction
  let width := PalAccess.widthOf i.function
  let addr := address i
  update fun i => { i with completion := if width = .long then .signExtendLong else .none }
  match PalAccess.ofFunction i.function with
  | .physical => readPhysical addr width
  | .physicalLocked =>
    readPhysical addr width
    setLock (.acquire addr addr)
  | .virtual => discard (readVirtual addr width)

def storeMemory : ExecutionStep π Unit := do
  let i := (← get).instruction
  let width := PalAccess.widthOf i.function
  let addr := address i
  match PalAccess.ofFunction i.function with
  | .physical => writePhysical addr width i.b
  | .physicalLocked => storeConditional (writePhysical addr width i.b)
  | .virtual => writeVirtual addr width i.b

def execute [BlockDevice π] : PalOp → ExecutionStep π Unit
  | call => enterCall
  | readRegister => do
    let e ← get
    writeInt (e.core.readIndex (registerIndex e.instruction))
  | writeRegister => modify fun e =>
    { e with core := e.core.writeIndex (registerIndex e.instruction) e.instruction.b }
  | load => loadMemory
  | store => storeMemory
  | ret => update fun i => { i with branch := some ⟨true, i.a &&& ~~~3⟩ }

end PalOp

end EV6
