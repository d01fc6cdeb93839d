
namespace EV6

abbrev Word := BitVec 64

abbrev Longword := BitVec 32

inductive Width where
  | byte
  | word
  | long
  | quad
  deriving DecidableEq, Repr

namespace Width

def all : List Width := [.byte, .word, .long, .quad]

def bytes : Width → Nat
  | .byte => 1
  | .word => 2
  | .long => 4
  | .quad => 8

def bits (w : Width) : Nat := 8 * w.bytes

theorem bytes_pos (w : Width) : 0 < w.bytes := by cases w <;> decide

theorem bytes_le_eight (w : Width) : w.bytes ≤ 8 := by cases w <;> decide

def mask : Width → Word
  | .byte => 0xFF
  | .word => 0xFFFF
  | .long => 0xFFFFFFFF
  | .quad => 0xFFFFFFFFFFFFFFFF

theorem toNat_mask (w : Width) : w.mask.toNat = (1 <<< w.bits) - 1 := by cases w <;> decide

def lanes : Width → BitVec 8
  | .byte => 0x01
  | .word => 0x03
  | .long => 0x0F
  | .quad => 0xFF

def name : Width → String
  | .byte => "Byte"
  | .word => "Word"
  | .long => "Long"
  | .quad => "Quad"

def ofName? (s : String) : Option Width := all.find? (·.name == s)

end Width

namespace Word

def signExtend (value : Word) (w : Width) : Word :=
  (value.setWidth w.bits).signExtend 64

def zeroExtend (value : Word) (w : Width) : Word := value &&& w.mask

def byteAt (value : Word) (i : Nat) : BitVec 8 := value.extractLsb' (8 * i) 8

def laneMask (lanes : BitVec 8) : Word :=
  (List.range 8).foldl
    (fun acc i => if lanes.getLsbD i then acc ||| (0xFF#64 <<< (8 * i)) else acc) 0

def zap (value : Word) (lanes : BitVec 8) : Word := value &&& ~~~laneMask lanes

def zapNot (value : Word) (lanes : BitVec 8) : Word := value &&& laneMask lanes

def leadingZeros (value : Word) : Nat :=
  if value = 0 then 64 else 63 - value.toNat.log2

def onesCount (value : Word) : Nat :=
  (List.range 64).countP value.getLsbD

def trailingZeros (value : Word) : Nat :=
  ((List.range 64).takeWhile fun i => !value.getLsbD i).length

def ofBool (b : Bool) : Word := if b then 1 else 0

end Word

end EV6
