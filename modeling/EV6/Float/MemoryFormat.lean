import EV6.Word.Basic
/-!
The layouts of floating values in memory and in registers. The 32-bit formats widen on a load and
narrow on a store: an 8-bit exponent gains 896 except that zero stays zero and, in S_floating, all
ones stays all ones. The 64-bit VAX formats reverse their four 16-bit words. A longword in a
floating register has its two top bits apart from the rest.
-/

namespace EV6.MemoryFormat

def field (w : Word) (lo len : Nat) : Word := (w >>> lo) &&& (BitVec.ofNat 64 ((1 <<< len) - 1))

def widenExponent (exp8 : Word) (ieee : Bool) : Word :=
  if exp8 = 0 then 0
  else if exp8 = 0xFF && ieee then 0x7FF
  else exp8 + 896

def narrowExponent (reg : Word) : Word := (field reg 62 1 <<< 7) ||| field reg 52 7

def loadF (mem : Longword) : Word :=
  let m := mem.setWidth 64
  (field m 15 1 <<< 63) ||| (widenExponent (field m 7 8) false <<< 52)
    ||| (field m 0 7 <<< 45) ||| (field m 16 16 <<< 29)

def storeF (reg : Word) : Longword :=
  ((field reg 29 16 <<< 16) ||| (field reg 63 1 <<< 15) ||| (narrowExponent reg <<< 7)
    ||| field reg 45 7).setWidth 32

def loadS (mem : Longword) : Word :=
  let m := mem.setWidth 64
  (field m 31 1 <<< 63) ||| (widenExponent (field m 23 8) true <<< 52) ||| (field m 0 23 <<< 29)

def storeS (reg : Word) : Longword :=
  ((field reg 63 1 <<< 31) ||| (narrowExponent reg <<< 23) ||| field reg 29 23).setWidth 32

def loadG (mem : Word) : Word :=
  (field mem 0 16 <<< 48) ||| (field mem 16 16 <<< 32) ||| (field mem 32 16 <<< 16)
    ||| field mem 48 16

def storeG (reg : Word) : Word := loadG reg

def longwordToRegister (lw : Longword) : Word :=
  let m := lw.setWidth 64
  (field m 30 2 <<< 62) ||| (field m 0 30 <<< 29)

def registerToLongword (reg : Word) : Word :=
  Word.signExtend ((field reg 62 2 <<< 30) ||| field reg 29 30) .long

def floatToS (reg : Word) : Word := Word.signExtend ((storeS reg).setWidth 64) .long

end EV6.MemoryFormat
