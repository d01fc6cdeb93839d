import EV6.Storage.Ram
/-!
What lies behind the caches: anything that answers block accesses, or fails. RAM does; a memory port
is RAM that may refuse some accesses and lists all of them in the order they were made.
-/

namespace EV6

class BlockDevice (π : Type) where
  readBlock (addr : Word) (length : Nat) : Step π BusError (List Byte)
  writeBlock (addr : Word) (data : List Byte) : Step π BusError Unit

instance : BlockDevice Ram := ⟨Ram.read, Ram.write⟩

inductive BlockAccess where
  | read (addr : Word) (length : Nat)
  | write (addr : Word) (data : List Byte)
  deriving DecidableEq, Repr

namespace BlockAccess

def addr : BlockAccess → Word
  | read addr _ => addr
  | write addr _ => addr

def length : BlockAccess → Nat
  | read _ length => length
  | write _ data => data.length

def isWrite : BlockAccess → Bool
  | read _ _ => false
  | write _ _ => true

end BlockAccess

structure Transfer where
  access : BlockAccess
  failed : Bool
  deriving DecidableEq, Repr

structure MemoryPort where
  ram : Ram
  refuses : BlockAccess → Bool
  /-- What was done so far, the newest first. -/
  log : List Transfer

namespace MemoryPort

def ofRam (ram : Ram) : MemoryPort := ⟨ram, fun _ => false, []⟩

def refusingWrites (p : MemoryPort) (first last : Word) : MemoryPort :=
  { p with
    refuses := fun a => a.isWrite && first.toNat ≤ a.addr.toNat && a.addr.toNat < last.toNat }

def transfers (p : MemoryPort) : List Transfer := p.log.reverse

def withoutLog (p : MemoryPort) : MemoryPort := { p with log := [] }

def record (p : MemoryPort) (access : BlockAccess) (failed : Bool) : MemoryPort :=
  { p with log := ⟨access, failed⟩ :: p.log }

def transfer {α : Type} (access : BlockAccess) (act : Step Ram BusError α) :
    Step MemoryPort BusError α := fun p =>
  if p.refuses access then .failed ⟨access.addr, access.length⟩ (p.record access true)
  else
    match act p.ram with
    | .done a ram => .done a ({ p with ram }.record access false)
    | .failed e ram => .failed e ({ p with ram }.record access true)
    | .broken b => .broken b

def readBlock (addr : Word) (length : Nat) : Step MemoryPort BusError (List Byte) :=
  transfer (.read addr length) (Ram.read addr length)

def writeBlock (addr : Word) (data : List Byte) : Step MemoryPort BusError Unit :=
  transfer (.write addr data) (Ram.write addr data)

instance : BlockDevice MemoryPort := ⟨readBlock, writeBlock⟩

end MemoryPort

end EV6
