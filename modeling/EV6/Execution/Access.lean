import EV6.Execution.Basic
/-!
Loads and stores. Big-endian mode exchanges the byte lanes of addresses; the unaligned quadword
forms ignore the low address bits instead.
-/

namespace EV6

open Execution

namespace LoadOp

def completion : LoadOp → LoadCompletion
  | ldbu => .zeroExtendByte
  | ldwu => .zeroExtendWord
  | ldl | ldlLocked => .signExtendLong
  | ldf => .convertF
  | lds => .convertS
  | ldg => .convertG
  | ldt => .floatT
  | ldq | ldqU | ldqLocked => .none

def aligns : LoadOp → Bool
  | ldqU => true
  | _ => false

end LoadOp

namespace StoreOp

def image (op : StoreOp) (data : Word) : Word :=
  match op with
  | stf => (MemoryFormat.storeF data).setWidth 64
  | sts => (MemoryFormat.storeS data).setWidth 64
  | stg => MemoryFormat.storeG data
  | _ => data

def aligns : StoreOp → Bool
  | stqU => true
  | _ => false

end StoreOp

namespace Execution

def effectiveAddress {π : Type} (e : Execution π) (width : Width) (aligns : Bool) : Word :=
  let va := address e.instruction
  if aligns then Address.quadAligned va
  else if e.core.bigEndian then Address.bigEndian va width
  else va

end Execution

namespace AddressOp

def execute (op : AddressOp) (i : Instruction) : Instruction :=
  match op with
  | low => i.withInt (i.a + i.displacement)
  | high => i.withInt (i.a + (i.displacement <<< 16))

end AddressOp

namespace LoadOp

def execute {π : Type} [BlockDevice π] (op : LoadOp) : ExecutionStep π Unit := do
  update fun i => { i with completion := op.completion }
  let va := (← get).effectiveAddress op.width op.aligns
  let pa ← readVirtual va op.width
  if op.locks then setLock (.acquire va pa)

end LoadOp

namespace StoreOp

def execute {π : Type} (op : StoreOp) : ExecutionStep π Unit := do
  let e ← get
  let store :=
    writeVirtual (e.effectiveAddress op.width op.aligns) op.width (op.image e.instruction.b)
  if op.conditional then storeConditional store else store

end StoreOp

end EV6
