import EV6.Fault.Basic
import EV6.Float.Class
import EV6.Float.Exact
import EV6.Float.Result
/-!
VAX arithmetic on F_floating and G_floating images, and conversions among F, G, D and integers.
Reserved operands and dirty zeros are illegal before anything is computed. A result too small for
the format becomes zero and raises underflow; one too large raises overflow.
-/

namespace EV6

namespace VaxFormat

def limits : VaxFormat → FloatLimits
  | f => .f
  | g => .g
  | d => .d

def fractionShift : VaxFormat → Nat
  | f => 29
  | g => 0
  | d => 0

def fractionBits : VaxFormat → Nat
  | f => 23
  | g => 52
  | d => 55

def exponentBits : VaxFormat → Nat
  | f => 11
  | g => 11
  | d => 8

def bias (format : VaxFormat) : Nat := 1 <<< (format.exponentBits - 1)

def unpack (format : VaxFormat) (reg : Word) : Except Fault Exact :=
  if (FloatClass.classify format.tag reg).isIllegalVax then .error .illegalOperand
  else
    let exponent := (reg.toNat >>> (63 - format.exponentBits)) % (1 <<< format.exponentBits)
    if exponent = 0 then .ok (Exact.zero false)
    else
      let fraction := (reg.toNat >>> format.fractionShift) % (1 <<< format.fractionBits)
      .ok
        { negative := reg.msb
          exponent := exponent - format.bias - format.fractionBits - 1
          significand := fraction + 1 <<< format.fractionBits }

/-- The image of a value that was rounded to the format and is in its range. -/
def pack (format : VaxFormat) (value : Exact) : Word :=
  if value.isZero then 0
  else
    let e := value.normalExponent
    let shift := (format.fractionBits - (e - value.exponent)).toNat
    let fraction := value.significand <<< shift % (1 <<< format.fractionBits)
    (if value.negative then 1 <<< 63 else 0)
      ||| (BitVec.ofNat 64 (e + format.bias + 1).toNat <<< (63 - format.exponentBits))
      ||| (BitVec.ofNat 64 fraction <<< format.fractionShift)

def finish (format : VaxFormat) (exact : Truncated) (rounding : Rounding) : FloatResult :=
  if exact.value.isZero && !exact.sticky then ⟨0, .none⟩
  else
    let r := exact.value.round exact.sticky format.limits rounding
    if r.overflow then ⟨0, .ofOverflow⟩
    else if r.tiny then ⟨0, .ofUnderflow⟩
    else ⟨format.pack r.value, .ofInexact r.inexact⟩

end VaxFormat

namespace Vax

def arithmetic (op : FloatArithmetic) (format : VaxFormat) (a b : Word) (rounding : Rounding) :
    Except Fault FloatResult := do
  let x ← format.unpack a
  let y ← format.unpack b
  return match op with
    | .add => format.finish (x.add y) rounding
    | .sub => format.finish (x.add y.negate) rounding
    | .mul => format.finish ⟨x.mul y, false⟩ rounding
    | .div => if y.isZero then ⟨0, .ofDivideByZero⟩ else format.finish (x.div y) rounding

def squareRoot (format : VaxFormat) (b : Word) (rounding : Rounding) :
    Except Fault FloatResult := do
  let y ← format.unpack b
  return if y.negative && !y.isZero then ⟨0, .ofInvalid⟩ else format.finish y.squareRoot rounding

def compare (relation : FloatRelation) (a b : Word) : Except Fault FloatResult := do
  let x ← VaxFormat.g.unpack a
  let y ← VaxFormat.g.unpack b
  return ⟨compareBits (relation.holds (some (x.order y))), .none⟩

def convert (source target : VaxFormat) (b : Word) (rounding : Rounding) :
    Except Fault FloatResult := do
  let y ← source.unpack b
  return target.finish ⟨y, false⟩ rounding

def toQuad (b : Word) (rounding : Rounding) : Except Fault FloatResult := do
  let y ← VaxFormat.g.unpack b
  let r := y.toInteger rounding
  pure
    { bits := r.bits
      flags := { FloatFlags.none with integerOverflow := r.overflow, inexact := r.inexact } }

def ofQuad (format : VaxFormat) (b : Word) (rounding : Rounding) : FloatResult :=
  format.finish ⟨Exact.ofInt b.toInt, false⟩ rounding

end Vax

end EV6
