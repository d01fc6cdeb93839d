import EV6.Float.Control
import EV6.Float.Exact
import EV6.Float.MemoryFormat
import EV6.Float.NotANumber
import EV6.Float.Result
import EV6.Isa.Floating
/-!
IEEE register images as values: how an image is read, and how a rounded value is written back. An
S_floating image is read and written through its 32-bit memory layout.
-/

namespace EV6

inductive IeeeValue where
  | zero (negative : Bool)
  | finite (value : Exact)
  | denormal (value : Exact)
  | infinity (negative : Bool)
  | notANumber (bits : Word)
  deriving DecidableEq, Repr

namespace IeeeValue

def negative : IeeeValue → Bool
  | zero n | infinity n => n
  | finite v | denormal v => v.negative
  | notANumber bits => bits.msb

def negate : IeeeValue → IeeeValue
  | zero n => zero !n
  | infinity n => infinity !n
  | finite v => finite v.negate
  | denormal v => denormal v.negate
  | notANumber bits => notANumber bits

/-- The exact value of a number; infinities and NaNs have none and count as zero here. -/
def exact : IeeeValue → Exact
  | finite v | denormal v => v
  | zero n | infinity n => Exact.zero n
  | notANumber _ => Exact.zero false

end IeeeValue

namespace IeeeFormat

def limits : IeeeFormat → FloatLimits
  | s => .s
  | t => .t

def fractionBits : IeeeFormat → Nat
  | s => 23
  | t => 52

def exponentBits : IeeeFormat → Nat
  | s => 8
  | t => 11

def image (format : IeeeFormat) (reg : Word) : Nat :=
  match format with
  | s => (MemoryFormat.storeS reg).toNat
  | t => reg.toNat

def unpack (format : IeeeFormat) (reg : Word) : IeeeValue :=
  let negative := reg.msb
  let exponent := (format.image reg >>> format.fractionBits) % (1 <<< format.exponentBits)
  let fraction := format.image reg % (1 <<< format.fractionBits)
  let scale : Int := 1 - format.limits.emax - format.fractionBits
  if exponent = 0 then
    if fraction = 0 then .zero negative else .denormal ⟨negative, scale, fraction⟩
  else if exponent = (1 <<< format.exponentBits) - 1 then
    if fraction = 0 then .infinity negative else .notANumber reg
  else .finite ⟨negative, exponent + scale - 1, fraction + 1 <<< format.fractionBits⟩

def assemble (format : IeeeFormat) (negative : Bool) (exponent fraction : Nat) : Word :=
  match format with
  | t =>
    (if negative then 1 <<< 63 else 0) ||| (BitVec.ofNat 64 exponent <<< 52)
      ||| BitVec.ofNat 64 fraction
  | s =>
    MemoryFormat.loadS
      ((if negative then 1 <<< 31 else 0) ||| (BitVec.ofNat 32 exponent <<< 23)
        ||| BitVec.ofNat 32 fraction)

/-- The image of a value that was rounded to the format and is in its range. -/
def pack (format : IeeeFormat) (value : Exact) : Word :=
  let limits := format.limits
  if value.isZero then format.assemble value.negative 0 0
  else if value.normalExponent < limits.emin then
    let shift := (value.exponent - (limits.emin - limits.precision + 1)).toNat
    format.assemble value.negative 0 (value.significand <<< shift)
  else
    let e := value.normalExponent
    let shift := (limits.precision - 1 - (e - value.exponent)).toNat
    format.assemble value.negative (e + limits.emax).toNat
      (value.significand <<< shift % (1 <<< (limits.precision - 1)))

def zero (negative : Bool) : Word := if negative then 1 <<< 63 else 0

def infinity (negative : Bool) : Word := zero negative ||| 0x7FF0000000000000

def maxFinite (format : IeeeFormat) (negative : Bool) : Word :=
  format.assemble negative (2 * format.limits.emax).toNat ((1 <<< format.fractionBits) - 1)

end IeeeFormat

end EV6
