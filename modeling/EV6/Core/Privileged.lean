import EV6.Core.Basic

namespace EV6

inductive InternalRegister where
  | itbTag
  | itbEntry
  | itbInvalidateProcess
  | itbInvalidateAll
  | itbInvalidateSingle
  | excAddr
  | currentMode
  | excSum
  | palBase
  | iCtl
  | dtbTag
  | dtbEntry
  | dtbInvalidateSingle
  | dtbAsn
  | mmStat
  | mCtl
  | processContext
  | dtbInvalidateProcess
  | dtbInvalidateAll
  | cycleCounter
  | cycleControl
  | va
  deriving DecidableEq, Repr

namespace InternalRegister

def all : List InternalRegister :=
  [.itbTag, .itbEntry, .itbInvalidateProcess, .itbInvalidateAll, .itbInvalidateSingle, .excAddr,
    .currentMode, .excSum, .palBase, .iCtl, .dtbTag, .dtbEntry, .dtbInvalidateSingle, .dtbAsn,
    .mmStat, .mCtl, .processContext, .dtbInvalidateProcess, .dtbInvalidateAll, .cycleCounter,
    .cycleControl, .va]

def index : InternalRegister → Nat
  | itbTag => 0x00
  | itbEntry => 0x01
  | itbInvalidateProcess => 0x02
  | itbInvalidateAll => 0x03
  | itbInvalidateSingle => 0x04
  | excAddr => 0x06
  | currentMode => 0x09
  | excSum => 0x0F
  | palBase => 0x10
  | iCtl => 0x11
  | dtbTag => 0x20
  | dtbEntry => 0x21
  | dtbInvalidateSingle => 0x24
  | dtbAsn => 0x25
  | mmStat => 0x27
  | mCtl => 0x28
  | processContext => 0x40
  | dtbInvalidateProcess => 0xA2
  | dtbInvalidateAll => 0xA3
  | cycleCounter => 0xC0
  | cycleControl => 0xC1
  | va => 0xC2

def ofIndex? (i : Nat) : Option InternalRegister := all.find? (·.index == i)

end InternalRegister

namespace Core

variable {π : Type}

/-- The address that PALcode returns to, with the PAL mode to return to in bit 0. -/
def returnAddress (c : Core π) (pc : Word) : Word := if c.palMode then pc ||| 1 else pc &&& ~~~1

def enterPal (c : Core π) (fault : Fault) (seq : Nat) (pc : Word) : Word × Core π :=
  let excSum := match fault with
    | .arithmeticTraps sum => BitVec.ofNat 64 sum.bits
    | _ => c.iprs.excSum
  (c.iprs.palBase + fault.palEntry,
    { c.clearLock with
      mbox := c.mbox.squash seq
      iprs := { c.iprs with excAddr := c.returnAddress pc, excSum }
      palMode := true
      statistics := { c.statistics with faults := c.statistics.faults + 1 } })

def callPal (c : Core π) (returnPc : Word) : Core π :=
  { c.clearLock with
    iprs := { c.iprs with excAddr := c.returnAddress returnPc }
    palMode := true }

def palReturn (c : Core π) (target : Word) : Core π :=
  if target.getLsbD 0 then { c with palMode := true }
  else
    { c with
      palMode := false
      translation := ⟨c.translation.itb.clearMiss, c.translation.dtb.clearMiss⟩ }

def readRegister (c : Core π) : InternalRegister → Word
  | .excAddr => c.iprs.excAddr
  | .currentMode => c.mode.toWord <<< 3
  | .excSum => c.iprs.excSum
  | .palBase => c.iprs.palBase
  | .iCtl => c.iprs.iCtl
  | .mCtl => c.iprs.mCtl
  | .dtbAsn => c.iprs.dtbAsn.setWidth 64 <<< 56
  | .processContext => c.iprs.itbAsn.setWidth 64 <<< 39
  | .mmStat => c.iprs.mmStat
  | .va => c.iprs.va
  | .cycleCounter => c.iprs.cc
  | _ => 0

def withIprs (c : Core π) (iprs : InternalRegisters) : Core π := { c with iprs }

def withItb (c : Core π) (itb : TranslationBuffer) : Core π :=
  { c with translation := { c.translation with itb } }

def withDtb (c : Core π) (dtb : TranslationBuffer) : Core π :=
  { c with translation := { c.translation with dtb } }

/-- The implemented bits of the PALcode base. -/
def palBaseMask : Word := 0x00000FFFFFFF8000

/-- The counter bits that a write of the counter control loads. -/
def countMask : Word := 0xFFFFFFF0

def writeRegister (c : Core π) (register : InternalRegister) (value : Word) : Core π :=
  let r := c.iprs
  let itb := c.translation.itb
  let dtb := c.translation.dtb
  match register with
  | .itbTag => c.withIprs { r with itbTag := value }
  | .itbEntry => c.withItb (itb.insert r.itbTag value r.itbAsn)
  | .itbInvalidateProcess => c.withItb itb.invalidateProcess
  | .itbInvalidateAll => c.withItb itb.invalidateAll
  | .itbInvalidateSingle => c.withItb (itb.invalidateSingle value r.itbAsn)
  | .dtbTag => c.withIprs { r with dtbTag := value }
  | .dtbEntry => c.withDtb (dtb.insert r.dtbTag value r.dtbAsn)
  | .dtbInvalidateProcess => c.withDtb dtb.invalidateProcess
  | .dtbInvalidateAll => c.withDtb dtb.invalidateAll
  | .dtbInvalidateSingle => c.withDtb (dtb.invalidateSingle value r.dtbAsn)
  | .dtbAsn => c.withIprs { r with dtbAsn := value.extractLsb' 56 8 }
  | .processContext => c.withIprs { r with itbAsn := value.extractLsb' 39 8 }
  | .excAddr => c.withIprs { r with excAddr := value }
  | .excSum => c.withIprs { r with excSum := 0 }
  | .currentMode => { c with mode := ProcessorMode.ofBits (value >>> 3) }
  | .palBase => c.withIprs { r with palBase := value &&& palBaseMask }
  | .iCtl => c.withIprs { r with iCtl := value }
  | .mCtl => c.withIprs { r with mCtl := value }
  | .cycleCounter =>
    c.withIprs { r with
      cc :=
        (value &&& ~~~InternalRegisters.lowLongword) ||| (r.cc &&& InternalRegisters.lowLongword) }
  | .cycleControl =>
    c.withIprs { r with
      ccCtl := value &&& InternalRegisters.counterEnable
      cc := (r.cc &&& ~~~countMask) ||| (value &&& countMask) }
  | .mmStat | .va => c

def readIndex (c : Core π) (index : Nat) : Word :=
  match InternalRegister.ofIndex? index with
  | some r => c.readRegister r
  | none => 0

def writeIndex (c : Core π) (index : Nat) (value : Word) : Core π :=
  match InternalRegister.ofIndex? index with
  | some r => c.writeRegister r value
  | none => c

end Core

end EV6
