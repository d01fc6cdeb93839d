import EV6.Registers.Internal
import EV6.Translation.Buffer
/-!
Address translation. An address must be the sign extension of its implemented bits. In kernel mode
an enabled superpage window maps directly; otherwise an entry of the stream's buffer must match, and
permission, validity and the fault-on bits are checked in that order.
-/

namespace EV6

structure TranslationUnit where
  itb : TranslationBuffer
  dtb : TranslationBuffer
  deriving DecidableEq, Repr

namespace TranslationUnit

def build (itb dtb : Nat) : Except Breach TranslationUnit := do
  let itb ← TranslationBuffer.build itb
  let dtb ← TranslationBuffer.build dtb
  return ⟨itb, dtb⟩

def isCanonical (va : Word) : Bool := (va.setWidth 48).signExtend 64 == va

/-- The address that an enabled superpage window gives; bit `i` of `enabled` enables window `i`. -/
def superpage (va : Word) (enabled : BitVec 3) : Option Word :=
  if enabled.getLsbD 2 && va.extractLsb' 46 2 == 2 then some (va &&& 0x00000FFFFFFFFFFF)
  else if enabled.getLsbD 1 && va.extractLsb' 41 7 == 0x7E then
    some ((va &&& 0x000001FFFFFFFFFF) ||| (if va.getLsbD 40 then 0x00000E0000000000 else 0))
  else if enabled.getLsbD 0 && va.extractLsb' 30 18 == 0x3FFFE then some (va &&& 0x3FFFFFFF)
  else none

def kernelSuperpage (va : Word) (access : AccessKind) (mode : ProcessorMode)
    (iprs : InternalRegisters) : Option Word :=
  if mode = .kernel then
    superpage va (if access.isInstruction then iprs.itbSuperpages else iprs.dtbSuperpages)
  else none

def checkAccess (e : PageEntry) (va : Word) (access : AccessKind) (mode : ProcessorMode) :
    Except Fault Word :=
  if !e.permits access mode then .error (.accessViolation va)
  else if !e.valid then .error (.translationNotValid va)
  else
    match access with
    | .fetch => if e.faultOnExecute then .error (.faultOnExecute va) else .ok (e.physical va)
    | .read => if e.faultOnRead then .error (.faultOnRead va) else .ok (e.physical va)
    | .write => if e.faultOnWrite then .error (.faultOnWrite va) else .ok (e.physical va)

def stream (u : TranslationUnit) (access : AccessKind) : TranslationBuffer :=
  if access.isInstruction then u.itb else u.dtb

def spaceOf (access : AccessKind) (iprs : InternalRegisters) : Byte :=
  if access.isInstruction then iprs.itbAsn else iprs.dtbAsn

/-- What is known about an address without a look at the pending misses: a translation or a fault,
or nothing on a miss. -/
def resolve (u : TranslationUnit) (va : Word) (access : AccessKind) (mode : ProcessorMode)
    (iprs : InternalRegisters) : Option (Except Fault Word) :=
  if !isCanonical va then some (.error (.accessViolation va))
  else
    match kernelSuperpage va access mode iprs with
    | some pa => some (.ok pa)
    | none =>
      ((u.stream access).lookup va (spaceOf access iprs)).map fun e => checkAccess e va access mode

def missFault (u : TranslationUnit) (va : Word) (access : AccessKind) : Fault :=
  if access.isInstruction then .itbMiss va else .dtbMiss va u.dtb.missKind

def recordMiss (u : TranslationUnit) (va : Word) (access : AccessKind) : TranslationUnit :=
  if access.isInstruction then { u with itb := u.itb.recordMiss va }
  else { u with dtb := u.dtb.recordMiss va }

def translate (u : TranslationUnit) (va : Word) (access : AccessKind) (mode : ProcessorMode)
    (iprs : InternalRegisters) : Except Fault Word × TranslationUnit :=
  match u.resolve va access mode iprs with
  | some answer => (answer, u)
  | none => (.error (u.missFault va access), u.recordMiss va access)

def peek (u : TranslationUnit) (va : Word) (access : AccessKind) (mode : ProcessorMode)
    (iprs : InternalRegisters) : Option Word :=
  match u.resolve va access mode iprs with
  | some (.ok pa) => some pa
  | _ => none

end TranslationUnit

end EV6
