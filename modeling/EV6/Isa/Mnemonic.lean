import EV6.Isa.Floating

namespace EV6

inductive IntegerOp where
  | arithmetic (op : ArithmeticOp)
  | logic (op : LogicOp)
  | conditionalMove (condition : Condition)
  | shift (op : ShiftOp)
  | bytes (op : ByteOp)
  | multimedia (op : MultimediaOp)
  | architectureMask
  | implementationVersion
  deriving DecidableEq, Repr

namespace IntegerOp

def all : List IntegerOp :=
  ArithmeticOp.all.map arithmetic ++ LogicOp.all.map logic ++ Condition.all.map conditionalMove
    ++ ShiftOp.all.map shift ++ ByteOp.all.map bytes ++ MultimediaOp.all.map multimedia
    ++ [architectureMask, implementationVersion]

def name : IntegerOp → String
  | arithmetic op => op.name
  | logic op => op.name
  | conditionalMove c => "CMOV" ++ c.suffix
  | shift op => op.name
  | bytes op => op.name
  | multimedia op => op.name
  | architectureMask => "AMASK"
  | implementationVersion => "IMPLVER"

end IntegerOp

inductive LoadOp where
  | ldbu
  | ldwu
  | ldl
  | ldq
  | ldqU
  | ldlLocked
  | ldqLocked
  | ldf
  | ldg
  | lds
  | ldt
  deriving DecidableEq, Repr

namespace LoadOp

def all : List LoadOp :=
  [.ldbu, .ldwu, .ldl, .ldq, .ldqU, .ldlLocked, .ldqLocked, .ldf, .ldg, .lds, .ldt]

def name : LoadOp → String
  | ldbu => "LDBU"
  | ldwu => "LDWU"
  | ldl => "LDL"
  | ldq => "LDQ"
  | ldqU => "LDQ_U"
  | ldlLocked => "LDL_L"
  | ldqLocked => "LDQ_L"
  | ldf => "LDF"
  | ldg => "LDG"
  | lds => "LDS"
  | ldt => "LDT"

def width : LoadOp → Width
  | ldbu => .byte
  | ldwu => .word
  | ldl | ldlLocked | ldf | lds => .long
  | ldq | ldqU | ldqLocked | ldg | ldt => .quad

def locks : LoadOp → Bool
  | ldlLocked | ldqLocked => true
  | _ => false

end LoadOp

inductive StoreOp where
  | stb
  | stw
  | stl
  | stq
  | stqU
  | stlConditional
  | stqConditional
  | stf
  | stg
  | sts
  | stt
  deriving DecidableEq, Repr

namespace StoreOp

def all : List StoreOp :=
  [.stb, .stw, .stl, .stq, .stqU, .stlConditional, .stqConditional, .stf, .stg, .sts, .stt]

def name : StoreOp → String
  | stb => "STB"
  | stw => "STW"
  | stl => "STL"
  | stq => "STQ"
  | stqU => "STQ_U"
  | stlConditional => "STL_C"
  | stqConditional => "STQ_C"
  | stf => "STF"
  | stg => "STG"
  | sts => "STS"
  | stt => "STT"

def width : StoreOp → Width
  | stb => .byte
  | stw => .word
  | stl | stlConditional | stf | sts => .long
  | stq | stqU | stqConditional | stg | stt => .quad

def conditional : StoreOp → Bool
  | stlConditional | stqConditional => true
  | _ => false

end StoreOp

inductive ControlOp where
  | br
  | bsr
  | jmp
  | jsr
  | ret
  | jsrCoroutine
  | branch (condition : Condition)
  | floatBranch (test : ZeroTest)
  deriving DecidableEq, Repr

namespace ControlOp

def all : List ControlOp :=
  [.br, .bsr, .jmp, .jsr, .ret, .jsrCoroutine]
    ++ Condition.all.map branch ++ ZeroTest.all.map floatBranch

def name : ControlOp → String
  | br => "BR"
  | bsr => "BSR"
  | jmp => "JMP"
  | jsr => "JSR"
  | ret => "RET"
  | jsrCoroutine => "JSR_COROUTINE"
  | branch c => "B" ++ c.suffix
  | floatBranch t => "FB" ++ t.suffix

def conditional : ControlOp → Bool
  | branch _ | floatBranch _ => true
  | _ => false

end ControlOp

inductive MiscOp where
  | trapBarrier
  | exceptionBarrier
  | memoryBarrier
  | writeBarrier
  | prefetch
  | prefetchModify
  | readCycleCounter
  | readClearFlag
  | readSetFlag
  | evictBlock
  | writeHint
  | writeHintEvict
  deriving DecidableEq, Repr

namespace MiscOp

def all : List MiscOp :=
  [.trapBarrier, .exceptionBarrier, .memoryBarrier, .writeBarrier, .prefetch, .prefetchModify,
    .readCycleCounter, .readClearFlag, .readSetFlag, .evictBlock, .writeHint, .writeHintEvict]

def name : MiscOp → String
  | trapBarrier => "TRAPB"
  | exceptionBarrier => "EXCB"
  | memoryBarrier => "MB"
  | writeBarrier => "WMB"
  | prefetch => "FETCH"
  | prefetchModify => "FETCH_M"
  | readCycleCounter => "RPCC"
  | readClearFlag => "RC"
  | readSetFlag => "RS"
  | evictBlock => "ECB"
  | writeHint => "WH64"
  | writeHintEvict => "WH64EN"

end MiscOp

inductive PalOp where
  | call
  | readRegister
  | writeRegister
  | load
  | store
  | ret
  deriving DecidableEq, Repr

namespace PalOp

def all : List PalOp := [.call, .readRegister, .writeRegister, .load, .store, .ret]

def name : PalOp → String
  | call => "CALL_PAL"
  | readRegister => "HW_MFPR"
  | writeRegister => "HW_MTPR"
  | load => "HW_LD"
  | store => "HW_ST"
  | ret => "HW_RET"

end PalOp

inductive AddressOp where
  | low
  | high
  deriving DecidableEq, Repr

namespace AddressOp

def all : List AddressOp := [.low, .high]

def name : AddressOp → String
  | low => "LDA"
  | high => "LDAH"

end AddressOp

inductive Mnemonic where
  | reserved
  | pal (op : PalOp)
  | address (op : AddressOp)
  | load (op : LoadOp)
  | store (op : StoreOp)
  | control (op : ControlOp)
  | misc (op : MiscOp)
  | float (op : FloatOp)
  | integer (op : IntegerOp)
  deriving DecidableEq, Repr

namespace Mnemonic

def all : List Mnemonic :=
  [reserved] ++ PalOp.all.map pal ++ AddressOp.all.map address ++ LoadOp.all.map load
    ++ StoreOp.all.map store ++ ControlOp.all.map control ++ MiscOp.all.map misc
    ++ FloatOp.all.map float ++ IntegerOp.all.map integer

def name : Mnemonic → String
  | reserved => "OPCDEC"
  | pal op => op.name
  | address op => op.name
  | load op => op.name
  | store op => op.name
  | control op => op.name
  | misc op => op.name
  | float op => op.name
  | integer op => op.name

def ofName? (s : String) : Option Mnemonic := all.find? (·.name == s)

def isLoad : Mnemonic → Bool
  | load _ => true
  | _ => false

def isStore : Mnemonic → Bool
  | store _ => true
  | _ => false

def isConditionalBranch : Mnemonic → Bool
  | control op => op.conditional
  | _ => false

def isControl : Mnemonic → Bool
  | control _ => true
  | _ => false

def isPalOnly : Mnemonic → Bool
  | pal .call => false
  | pal _ => true
  | _ => false

end Mnemonic

end EV6
