import EV6.Fault.Breach
import EV6.Word.Basic

namespace EV6

namespace Address

def pageBits : Nat := 13

def physicalMask : Word := 0x00000FFFFFFFFFFF

def pageOffset (va : Word) : Word := va &&& 0x1FFF

def pageNumber (va : Word) : Word := va >>> pageBits

def quadAligned (va : Word) : Word := va &&& ~~~0x7

def isAligned (va : Word) (w : Width) : Bool := va &&& BitVec.ofNat 64 (w.bytes - 1) == 0

theorem isAligned_iff (va : Word) (w : Width) : isAligned va w ↔ va.toNat % w.bytes = 0 := by
  have h (k : Nat) (hk : k < 64) :
      (va &&& BitVec.ofNat 64 (2 ^ k - 1) == 0) = true ↔ va.toNat % 2 ^ k = 0 := by
    have hlt : 2 ^ k - 1 < 2 ^ 64 := by
      have := Nat.pow_le_pow_right (n := 2) (by decide) (Nat.le_of_lt hk)
      omega
    rw [beq_iff_eq, ← BitVec.toNat_inj, BitVec.toNat_and, BitVec.toNat_ofNat,
      Nat.mod_eq_of_lt hlt, Nat.and_two_pow_sub_one_eq_mod]
    rfl
  cases w
  · exact h 0 (by decide)
  · exact h 1 (by decide)
  · exact h 2 (by decide)
  · exact h 3 (by decide)

def bigEndian (value : Word) : Width → Word
  | .byte => value ^^^ 0x7
  | .word => value ^^^ 0x6
  | .long => value ^^^ 0x4
  | .quad => value

theorem bigEndian_bigEndian (value : Word) (w : Width) :
    bigEndian (bigEndian value w) w = value := by
  cases w <;> simp only [bigEndian, BitVec.xor_assoc, BitVec.xor_self, BitVec.xor_zero]

def lineBase (pa : Word) (lineBytes : Nat) : Word := pa &&& ~~~(BitVec.ofNat 64 lineBytes - 1)

def lineOffset (pa : Word) (lineBytes : Nat) : Nat :=
  (pa &&& (BitVec.ofNat 64 lineBytes - 1)).toNat

structure LinePlace where
  base : Word
  offset : Nat
  deriving DecidableEq, Repr

def inLine (pa : Word) (lineBytes : Nat) : Except Breach LinePlace := do
  let _ ← Machine.sub lineBytes 1
  .ok ⟨lineBase pa lineBytes, lineOffset pa lineBytes⟩

end Address

end EV6
