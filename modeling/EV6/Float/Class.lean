import EV6.Isa.Floating
/-!
The class of a floating register image, read off its encoding. A VAX image with exponent zero is a
true zero only when every other bit is clear; otherwise it is a dirty zero or, with the sign set, a
reserved operand, and both are illegal.
-/

namespace EV6

inductive FloatClass where
  | finite
  | zero
  | denormal
  | reserved
  | dirtyZero
  | infinity
  | notANumber
  deriving DecidableEq, Repr

namespace FloatClass

def name : FloatClass → String
  | finite => "Finite"
  | zero => "Zero"
  | denormal => "Denormal"
  | reserved => "Reserved"
  | dirtyZero => "DirtyZero"
  | infinity => "Infinity"
  | notANumber => "NotANumber"

def isIllegalVax : FloatClass → Bool
  | reserved | dirtyZero => true
  | _ => false

def ofIeee (bits : Word) (fractionBits exponentBits : Nat) : FloatClass :=
  let exponent := (bits.toNat >>> fractionBits) % (1 <<< exponentBits)
  let fraction := bits.toNat % (1 <<< fractionBits)
  if exponent = 0 then (if fraction = 0 then zero else denormal)
  else if exponent = (1 <<< exponentBits) - 1 then (if fraction = 0 then infinity else notANumber)
  else finite

def ofVax (bits : Word) (fractionBits exponentBits : Nat) : FloatClass :=
  if (bits.toNat >>> fractionBits) % (1 <<< exponentBits) ≠ 0 then finite
  else if bits.msb then reserved
  else if bits = 0 then zero
  else dirtyZero

def classify : FloatFormat → Word → FloatClass
  | .s, bits | .t, bits => ofIeee bits 52 11
  | .x, bits => ofIeee bits 48 15
  | .f, bits | .g, bits => ofVax bits 52 11
  | .d, bits => ofVax bits 55 8

end FloatClass

end EV6
