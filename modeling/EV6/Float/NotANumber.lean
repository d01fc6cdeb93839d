import EV6.Word.Basic
/-!
NaN images. Both IEEE formats share the T_floating register layout, where bit 51 tells a quiet NaN
from a signalling one.
-/

namespace EV6.NotANumber

def canonical : Word := 0xFFF8000000000000

def exponentMask : Word := 0x7FF0000000000000

def fractionMask : Word := 0x000FFFFFFFFFFFFF

def quietBit : Word := 1 <<< 51

def isNaN (bits : Word) : Bool :=
  bits &&& exponentMask == exponentMask && bits &&& fractionMask != 0

def isSignaling (bits : Word) : Bool := isNaN bits && bits &&& quietBit == 0

def quiet (bits : Word) : Word := bits ||| quietBit

theorem quiet_and_quietBit (bits : Word) : quiet bits &&& quietBit = quietBit := by
  ext i hi
  simp only [quiet, BitVec.getElem_and, BitVec.getElem_or]
  cases bits[i] <;> simp

theorem isSignaling_quiet (bits : Word) : isSignaling (quiet bits) = false := by
  have h : (quietBit == 0) = false := by decide
  rw [isSignaling, quiet_and_quietBit, h, Bool.and_false]

def propagate (a b : Word) : Option Word :=
  if isNaN b then some (quiet b) else if isNaN a then some (quiet a) else none

end EV6.NotANumber
