import EV6.Fault.Basic
import EV6.Isa.Encoding
import EV6.Storage.Bytes

namespace EV6

structure InternalRegisters where
  itbTag : Word
  dtbTag : Word
  excAddr : Word
  excSum : Word
  palBase : Word
  iCtl : Word
  mCtl : Word
  dtbAsn : Byte
  itbAsn : Byte
  mmStat : Word
  va : Word
  cc : Word
  ccCtl : Word
  deriving DecidableEq, Repr

namespace InternalRegisters

def zero : InternalRegisters := ⟨0, 0, 0, 0, 0, 0, 0, 0, 0, 0, 0, 0, 0⟩

def toList (r : InternalRegisters) : List (String × Word) :=
  [("itb_tag", r.itbTag), ("dtb_tag", r.dtbTag), ("exc_addr", r.excAddr), ("exc_sum", r.excSum),
    ("pal_base", r.palBase), ("i_ctl", r.iCtl), ("m_ctl", r.mCtl),
    ("dtb_asn", r.dtbAsn.setWidth 64), ("itb_asn", r.itbAsn.setWidth 64), ("mm_stat", r.mmStat),
    ("va", r.va), ("cc", r.cc), ("cc_ctl", r.ccCtl)]

def assign (r : InternalRegisters) (f : String → Option Word) : InternalRegisters :=
  { itbTag := (f "itb_tag").getD r.itbTag
    dtbTag := (f "dtb_tag").getD r.dtbTag
    excAddr := (f "exc_addr").getD r.excAddr
    excSum := (f "exc_sum").getD r.excSum
    palBase := (f "pal_base").getD r.palBase
    iCtl := (f "i_ctl").getD r.iCtl
    mCtl := (f "m_ctl").getD r.mCtl
    dtbAsn := ((f "dtb_asn").map (·.setWidth 8)).getD r.dtbAsn
    itbAsn := ((f "itb_asn").map (·.setWidth 8)).getD r.itbAsn
    mmStat := (f "mm_stat").getD r.mmStat
    va := (f "va").getD r.va
    cc := (f "cc").getD r.cc
    ccCtl := (f "cc_ctl").getD r.ccCtl }

theorem assign_toList (r s : InternalRegisters) :
    s.assign (fun name => r.toList.lookup name) = r := by
  simp [assign, toList, List.lookup_cons]

def itbSuperpages (r : InternalRegisters) : BitVec 3 := (r.iCtl >>> 3).setWidth 3

def dtbSuperpages (r : InternalRegisters) : BitVec 3 := (r.mCtl >>> 1).setWidth 3

def statusOf (fault : Fault) (opcode : Opcode) (write : Bool) : Word :=
  let cause : Word := match fault with
    | .accessViolation _ => 2
    | .faultOnRead _ => 4
    | .faultOnWrite _ => 8
    | _ => 0
  (((opcode &&& 0x3F).setWidth 64) <<< 4) ||| cause ||| Word.ofBool write

def latch (r : InternalRegisters) (fault : Fault) (opcode : Opcode) (write : Bool) :
    InternalRegisters :=
  match fault.virtualAddress? with
  | none => r
  | some va => { r with va, mmStat := statusOf fault opcode write }

def counterEnable : Word := 1 <<< 32

def lowLongword : Word := 0xFFFFFFFF

def tick (r : InternalRegisters) (cycles : Word) : InternalRegisters :=
  if r.ccCtl &&& counterEnable = 0 then r
  else { r with cc := (r.cc &&& ~~~lowLongword) ||| ((r.cc + cycles) &&& lowLongword) }

end InternalRegisters

end EV6
