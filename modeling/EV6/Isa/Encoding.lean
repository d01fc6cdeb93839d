import EV6.Isa.Mnemonic

namespace EV6

abbrev Opcode := BitVec 8

namespace Encoding

def arithmetic? : Nat → Option ArithmeticOp
  | 0x00 => some (.add .long .one)
  | 0x02 => some (.add .long .four)
  | 0x09 => some (.sub .long .one)
  | 0x0B => some (.sub .long .four)
  | 0x0F => some .compareBytes
  | 0x12 => some (.add .long .eight)
  | 0x1B => some (.sub .long .eight)
  | 0x1D => some (.compare .ult)
  | 0x20 => some (.add .quad .one)
  | 0x22 => some (.add .quad .four)
  | 0x29 => some (.sub .quad .one)
  | 0x2B => some (.sub .quad .four)
  | 0x2D => some (.compare .eq)
  | 0x32 => some (.add .quad .eight)
  | 0x3B => some (.sub .quad .eight)
  | 0x3D => some (.compare .ule)
  | 0x40 => some (.addChecked .long)
  | 0x49 => some (.subChecked .long)
  | 0x4D => some (.compare .lt)
  | 0x60 => some (.addChecked .quad)
  | 0x69 => some (.subChecked .quad)
  | 0x6D => some (.compare .le)
  | _ => none

def logical? : Nat → Option IntegerOp
  | 0x00 => some (.logic .and)
  | 0x08 => some (.logic .bic)
  | 0x14 => some (.conditionalMove .lowSet)
  | 0x16 => some (.conditionalMove .lowClear)
  | 0x20 => some (.logic .bis)
  | 0x24 => some (.conditionalMove (.zero .eq))
  | 0x26 => some (.conditionalMove (.zero .ne))
  | 0x28 => some (.logic .ornot)
  | 0x40 => some (.logic .xor)
  | 0x44 => some (.conditionalMove (.zero .lt))
  | 0x46 => some (.conditionalMove (.zero .ge))
  | 0x48 => some (.logic .eqv)
  | 0x61 => some .architectureMask
  | 0x64 => some (.conditionalMove (.zero .le))
  | 0x66 => some (.conditionalMove (.zero .gt))
  | 0x6C => some .implementationVersion
  | _ => none

def shifting? : Nat → Option IntegerOp
  | 0x02 => some (.bytes (.low .mask .byte))
  | 0x06 => some (.bytes (.low .extract .byte))
  | 0x0B => some (.bytes (.low .insert .byte))
  | 0x12 => some (.bytes (.low .mask .word))
  | 0x16 => some (.bytes (.low .extract .word))
  | 0x1B => some (.bytes (.low .insert .word))
  | 0x22 => some (.bytes (.low .mask .long))
  | 0x26 => some (.bytes (.low .extract .long))
  | 0x2B => some (.bytes (.low .insert .long))
  | 0x30 => some (.bytes .zap)
  | 0x31 => some (.bytes .zapNot)
  | 0x32 => some (.bytes (.low .mask .quad))
  | 0x34 => some (.shift .right)
  | 0x36 => some (.bytes (.low .extract .quad))
  | 0x39 => some (.shift .left)
  | 0x3B => some (.bytes (.low .insert .quad))
  | 0x3C => some (.shift .rightArithmetic)
  | 0x52 => some (.bytes (.high .mask .word))
  | 0x57 => some (.bytes (.high .insert .word))
  | 0x5A => some (.bytes (.high .extract .word))
  | 0x62 => some (.bytes (.high .mask .long))
  | 0x67 => some (.bytes (.high .insert .long))
  | 0x6A => some (.bytes (.high .extract .long))
  | 0x72 => some (.bytes (.high .mask .quad))
  | 0x77 => some (.bytes (.high .insert .quad))
  | 0x7A => some (.bytes (.high .extract .quad))
  | _ => none

def multiply? : Nat → Option ArithmeticOp
  | 0x00 => some (.mul .long)
  | 0x20 => some (.mul .quad)
  | 0x30 => some .mulHigh
  | 0x40 => some (.mulChecked .long)
  | 0x60 => some (.mulChecked .quad)
  | _ => none

def extended? : Nat → Option Mnemonic
  | 0x00 => some (.integer (.bytes .signExtendByte))
  | 0x01 => some (.integer (.bytes .signExtendWord))
  | 0x30 => some (.integer (.arithmetic .countOnes))
  | 0x31 => some (.integer (.multimedia .pixelError))
  | 0x32 => some (.integer (.arithmetic .countLeadingZeros))
  | 0x33 => some (.integer (.arithmetic .countTrailingZeros))
  | 0x34 => some (.integer (.multimedia .unpackWords))
  | 0x35 => some (.integer (.multimedia .unpackLongs))
  | 0x36 => some (.integer (.multimedia .packWords))
  | 0x37 => some (.integer (.multimedia .packLongs))
  | 0x38 => some (.integer (.multimedia (.extremum .min ⟨false, true⟩)))
  | 0x39 => some (.integer (.multimedia (.extremum .min ⟨true, true⟩)))
  | 0x3A => some (.integer (.multimedia (.extremum .min ⟨false, false⟩)))
  | 0x3B => some (.integer (.multimedia (.extremum .min ⟨true, false⟩)))
  | 0x3C => some (.integer (.multimedia (.extremum .max ⟨false, false⟩)))
  | 0x3D => some (.integer (.multimedia (.extremum .max ⟨true, false⟩)))
  | 0x3E => some (.integer (.multimedia (.extremum .max ⟨false, true⟩)))
  | 0x3F => some (.integer (.multimedia (.extremum .max ⟨true, true⟩)))
  | 0x70 => some (.float .floatToT)
  | 0x78 => some (.float .floatToS)
  | _ => none

/-- Integer-to-floating moves and square roots, by the low six bits of the function. -/
def integerToFloat? : Nat → Option FloatOp
  | 0x04 => some .integerToS
  | 0x0A => some (.vax (.squareRoot .f))
  | 0x0B => some (.ieee (.squareRoot .s))
  | 0x14 => some .integerToF
  | 0x24 => some .integerToT
  | 0x2A => some (.vax (.squareRoot .g))
  | 0x2B => some (.ieee (.squareRoot .t))
  | _ => none

/-- VAX operations, by the low six bits of the function. -/
def vax? : Nat → Option VaxOp
  | 0x00 => some (.arithmetic .add .f)
  | 0x01 => some (.arithmetic .sub .f)
  | 0x02 => some (.arithmetic .mul .f)
  | 0x03 => some (.arithmetic .div .f)
  | 0x1E => some .dToG
  | 0x20 => some (.arithmetic .add .g)
  | 0x21 => some (.arithmetic .sub .g)
  | 0x22 => some (.arithmetic .mul .g)
  | 0x23 => some (.arithmetic .div .g)
  | 0x25 => some (.compare .equal)
  | 0x26 => some (.compare .less)
  | 0x27 => some (.compare .lessEqual)
  | 0x2C => some .gToF
  | 0x2D => some .gToD
  | 0x2F => some .gToQuad
  | 0x3C => some (.ofQuad .f)
  | 0x3E => some (.ofQuad .g)
  | _ => none

/-- IEEE operations other than the S-to-T conversion, by the low six bits of the function. -/
def ieee? : Nat → Option IeeeOp
  | 0x00 => some (.arithmetic .add .s)
  | 0x01 => some (.arithmetic .sub .s)
  | 0x02 => some (.arithmetic .mul .s)
  | 0x03 => some (.arithmetic .div .s)
  | 0x20 => some (.arithmetic .add .t)
  | 0x21 => some (.arithmetic .sub .t)
  | 0x22 => some (.arithmetic .mul .t)
  | 0x23 => some (.arithmetic .div .t)
  | 0x24 => some (.compare .unordered)
  | 0x25 => some (.compare .equal)
  | 0x26 => some (.compare .less)
  | 0x27 => some (.compare .lessEqual)
  | 0x2C => some .tToS
  | 0x2F => some .tToQuad
  | 0x3C => some (.ofQuad .s)
  | 0x3E => some (.ofQuad .t)
  | _ => none

/-- The two full function codes of the S-to-T conversion, without and with `/S`. -/
def isSToT (function : Nat) : Bool := function == 0x2AC || function == 0x6AC

/-- The operations that do not depend on a data type, by the full function. -/
def untyped? : Nat → Option FloatOp
  | 0x010 => some .longToQuad
  | 0x020 => some (.copySign .sign)
  | 0x021 => some (.copySign .negatedSign)
  | 0x022 => some (.copySign .signAndExponent)
  | 0x024 => some .writeControl
  | 0x025 => some .readControl
  | 0x02A => some (.conditionalMove .eq)
  | 0x02B => some (.conditionalMove .ne)
  | 0x02C => some (.conditionalMove .lt)
  | 0x02D => some (.conditionalMove .ge)
  | 0x02E => some (.conditionalMove .le)
  | 0x02F => some (.conditionalMove .gt)
  | 0x030 | 0x130 | 0x530 => some .quadToLong
  | _ => none

def misc? : Nat → Option MiscOp
  | 0x0000 => some .trapBarrier
  | 0x0400 => some .exceptionBarrier
  | 0x4000 => some .memoryBarrier
  | 0x4400 => some .writeBarrier
  | 0x8000 => some .prefetch
  | 0xA000 => some .prefetchModify
  | 0xC000 => some .readCycleCounter
  | 0xE000 => some .readClearFlag
  | 0xE800 => some .evictBlock
  | 0xF000 => some .readSetFlag
  | 0xF800 => some .writeHint
  | 0xFC00 => some .writeHintEvict
  | _ => none

def jump : Nat → ControlOp
  | 0 => .jmp
  | 1 => .jsr
  | 2 => .ret
  | _ => .jsrCoroutine

end Encoding

namespace Mnemonic

open Encoding

def ofFields (opcode : Opcode) (function : Longword) : Mnemonic :=
  let full := function.toNat
  let operation := full % 0x40
  match opcode.toNat with
  | 0x00 => .pal .call
  | 0x08 => .address .low
  | 0x09 => .address .high
  | 0x0A => .load .ldbu
  | 0x0B => .load .ldqU
  | 0x0C => .load .ldwu
  | 0x0D => .store .stw
  | 0x0E => .store .stb
  | 0x0F => .store .stqU
  | 0x10 => ((arithmetic? full).map fun op => integer (.arithmetic op)).getD .reserved
  | 0x11 => ((logical? full).map integer).getD .reserved
  | 0x12 => ((shifting? full).map integer).getD .reserved
  | 0x13 => ((multiply? full).map fun op => integer (.arithmetic op)).getD .reserved
  | 0x14 => ((integerToFloat? operation).map float).getD .reserved
  | 0x15 => ((vax? operation).map fun op => float (.vax op)).getD .reserved
  | 0x16 =>
      if isSToT full then .float (.ieee .sToT)
      else ((ieee? operation).map fun op => float (.ieee op)).getD .reserved
  | 0x17 => ((untyped? full).map float).getD .reserved
  | 0x18 => ((misc? full).map misc).getD .reserved
  | 0x19 => .pal .readRegister
  | 0x1A => .control (jump (full % 4))
  | 0x1B => .pal .load
  | 0x1C => (extended? full).getD .reserved
  | 0x1D => .pal .writeRegister
  | 0x1E => .pal .ret
  | 0x1F => .pal .store
  | 0x20 => .load .ldf
  | 0x21 => .load .ldg
  | 0x22 => .load .lds
  | 0x23 => .load .ldt
  | 0x24 => .store .stf
  | 0x25 => .store .stg
  | 0x26 => .store .sts
  | 0x27 => .store .stt
  | 0x28 => .load .ldl
  | 0x29 => .load .ldq
  | 0x2A => .load .ldlLocked
  | 0x2B => .load .ldqLocked
  | 0x2C => .store .stl
  | 0x2D => .store .stq
  | 0x2E => .store .stlConditional
  | 0x2F => .store .stqConditional
  | 0x30 => .control .br
  | 0x31 => .control (.floatBranch .eq)
  | 0x32 => .control (.floatBranch .lt)
  | 0x33 => .control (.floatBranch .le)
  | 0x34 => .control .bsr
  | 0x35 => .control (.floatBranch .ne)
  | 0x36 => .control (.floatBranch .ge)
  | 0x37 => .control (.floatBranch .gt)
  | 0x38 => .control (.branch .lowClear)
  | 0x39 => .control (.branch (.zero .eq))
  | 0x3A => .control (.branch (.zero .lt))
  | 0x3B => .control (.branch (.zero .le))
  | 0x3C => .control (.branch .lowSet)
  | 0x3D => .control (.branch (.zero .ne))
  | 0x3E => .control (.branch (.zero .ge))
  | 0x3F => .control (.branch (.zero .gt))
  | _ => .reserved

end Mnemonic

end EV6
