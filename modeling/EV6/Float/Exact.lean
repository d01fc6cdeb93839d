import EV6.Float.Qualifier
/-!
Exact finite values `± significand * 2 ^ exponent`. Sums, products, quotients and roots are computed
on them, with a sticky bit for what lies below the last kept bit, and rounded once at the end.
Significands have at most 128 bits.
-/

namespace EV6

structure Exact where
  negative : Bool
  exponent : Int
  significand : Nat
  deriving DecidableEq, Repr

structure Truncated where
  value : Exact
  sticky : Bool
  deriving DecidableEq, Repr

structure FloatLimits where
  precision : Nat
  /-- The exponent of the smallest normal value `1.f * 2 ^ emin`. -/
  emin : Int
  emax : Int
  denormals : Bool
  deriving DecidableEq, Repr

namespace FloatLimits

def t : FloatLimits := ⟨53, -1022, 1023, true⟩

def s : FloatLimits := ⟨24, -126, 127, true⟩

def g : FloatLimits := ⟨53, -1024, 1022, false⟩

def f : FloatLimits := ⟨24, -128, 126, false⟩

def d : FloatLimits := ⟨56, -128, 126, false⟩

end FloatLimits

inductive Tail where
  | exact
  | below
  | half
  | above
  deriving DecidableEq, Repr

namespace Tail

def ofSticky (sticky : Bool) : Tail := if sticky then below else exact

def ofRemainder (rem halfway : Nat) (sticky : Bool) : Tail :=
  if rem = 0 && !sticky then exact
  else if rem < halfway then below
  else if rem = halfway && !sticky then half
  else above

def increments (t : Tail) (rounding : Rounding) (negative odd : Bool) : Bool :=
  match t, rounding with
  | exact, _ => false
  | _, .chopped => false
  | _, .minusInfinity => negative
  | _, .plusInfinity => !negative
  | above, .nearestEven => true
  | half, .nearestEven => odd
  | below, .nearestEven => false
  | above, .nearestAway => true
  | half, .nearestAway => true
  | below, .nearestAway => false

end Tail

structure Kept where
  significand : Nat
  inexact : Bool
  deriving DecidableEq, Repr

structure Rounded where
  value : Exact
  inexact : Bool
  tiny : Bool
  overflow : Bool
  deriving DecidableEq, Repr

structure RoundedInteger where
  bits : Word
  inexact : Bool
  overflow : Bool
  deriving DecidableEq, Repr

namespace Exact

def zero (negative : Bool) : Exact := ⟨negative, 0, 0⟩

def isZero (a : Exact) : Bool := a.significand == 0

def ofInt (i : Int) : Exact := ⟨i < 0, 0, i.natAbs⟩

def negate (a : Exact) : Exact := { a with negative := !a.negative }

def topBit (n : Nat) : Int := if n = 0 then -1 else n.log2

/-- The exponent `e` with the magnitude in `[2 ^ e, 2 ^ (e + 1))`. -/
def normalExponent (a : Exact) : Int := a.exponent + topBit a.significand

/-- The same value with its highest bit at position `bit`; bits shifted out at the low end are
lost. -/
def alignedTo (a : Exact) (bit : Nat) : Exact :=
  if a.significand = 0 then a
  else
    let shift := (bit : Int) - topBit a.significand
    { a with
      exponent := a.exponent - shift
      significand :=
        if 0 ≤ shift then a.significand <<< shift.toNat else a.significand >>> (-shift).toNat }

def significandBound : Nat := 1 <<< 128

def splitAt (significand : Nat) (exponent : Int) (sticky : Bool) (lsb : Int) : Nat × Tail :=
  let drop := lsb - exponent
  if drop ≤ 0 then
    ((significand <<< min (-drop).toNat 127) % significandBound, Tail.ofSticky sticky)
  else if 128 < drop then
    (0, Tail.ofSticky (significand != 0 || sticky))
  else
    let d := drop.toNat
    (significand >>> d, Tail.ofRemainder (significand % (1 <<< d)) (1 <<< (d - 1)) sticky)

def roundAt (significand : Nat) (exponent : Int) (sticky : Bool) (lsb : Int)
    (rounding : Rounding) (negative : Bool) : Kept :=
  let (kept, tail) := splitAt significand exponent sticky lsb
  { significand := kept + (tail.increments rounding negative (kept % 2 == 1)).toNat
    inexact := tail != .exact }

def lastBit (a : Exact) (limits : FloatLimits) : Int :=
  if a.normalExponent < limits.emin && limits.denormals then limits.emin - limits.precision + 1
  else a.normalExponent - limits.precision + 1

def renormalize (a : Exact) (precision : Nat) : Exact :=
  if 1 <<< precision ≤ a.significand then
    { a with exponent := a.exponent + 1, significand := a.significand / 2 }
  else a

/-- Rounds once to a format. Tininess is decided before rounding where the format has denormals,
and after rounding where it has none. -/
def round (a : Exact) (sticky : Bool) (limits : FloatLimits) (rounding : Rounding) : Rounded :=
  if a.significand = 0 then
    let lsb := limits.emin - limits.precision + 1
    let kept := roundAt 0 (lsb - 1) sticky lsb rounding a.negative
    { value := ⟨a.negative, lsb, kept.significand⟩
      inexact := kept.inexact
      tiny := sticky
      overflow := false }
  else
    let lsb := a.lastBit limits
    let kept := roundAt a.significand a.exponent sticky lsb rounding a.negative
    let value := renormalize ⟨a.negative, lsb, kept.significand⟩ limits.precision
    { value
      inexact := kept.inexact
      tiny :=
        if limits.denormals then a.normalExponent < limits.emin
        else value.isZero || value.normalExponent < limits.emin
      overflow := !value.isZero && limits.emax < value.normalExponent }

def addOrdered (big small : Exact) : Truncated :=
  let big := big.alignedTo 126
  let small := small.alignedTo 126
  let distance := (big.exponent - small.exponent).toNat
  let aligned := if 128 ≤ distance then 0 else small.significand >>> distance
  let sticky :=
    if 128 ≤ distance then small.significand != 0 else small.significand % (1 <<< distance) != 0
  if big.negative = small.negative then
    ⟨⟨big.negative, big.exponent, big.significand + aligned⟩, sticky⟩
  else if aligned < big.significand then
    ⟨⟨big.negative, big.exponent, big.significand - aligned - sticky.toNat⟩, sticky⟩
  else if big.significand < aligned then
    ⟨⟨small.negative, big.exponent, aligned - big.significand⟩, false⟩
  else ⟨zero false, false⟩

def add (a b : Exact) : Truncated :=
  if a.isZero then ⟨b, false⟩
  else if b.isZero then ⟨a, false⟩
  else if b.normalExponent ≤ a.normalExponent then addOrdered a b
  else addOrdered b a

/-- The product of values whose significands have at most 64 bits. -/
def mul (a b : Exact) : Exact :=
  let negative := a.negative != b.negative
  if a.isZero || b.isZero then zero negative
  else
    let a := a.alignedTo 63
    let b := b.alignedTo 63
    ⟨negative, a.exponent + b.exponent, a.significand * b.significand⟩

/-- The quotient to at least 64 bits; zero when either operand is. -/
def div (a b : Exact) : Truncated :=
  let negative := a.negative != b.negative
  if a.isZero || b.isZero then ⟨zero negative, false⟩
  else
    let a := a.alignedTo 126
    let b := b.alignedTo 62
    ⟨⟨negative, a.exponent - b.exponent, a.significand / b.significand⟩,
      a.significand % b.significand != 0⟩

def rootDigits : Nat → Nat → Nat → Nat
  | 0, _, root => root
  | pairs + 1, rem, root =>
    let bit := 1 <<< (2 * pairs)
    if root + bit ≤ rem then rootDigits pairs (rem - (root + bit)) (root / 2 + bit)
    else rootDigits pairs rem (root / 2)

def significantPairs (value : Nat) : Nat → Nat
  | 0 => 0
  | pairs + 1 => if 1 <<< (2 * pairs) ≤ value then pairs + 1 else significantPairs value pairs

def integerRoot (value : Nat) : Nat := rootDigits (significantPairs value 64) value 0

/-- The square root of a non-negative value to at least 62 bits. -/
def squareRoot (a : Exact) : Truncated :=
  if a.isZero then ⟨a, false⟩
  else
    let a := a.alignedTo 124
    let a := if a.exponent % 2 = 0 then a else ⟨a.negative, a.exponent - 1, a.significand <<< 1⟩
    let root := integerRoot a.significand
    ⟨⟨false, a.exponent / 2, root⟩, root * root != a.significand⟩

def compareMagnitude (a b : Exact) : Ordering :=
  (compare a.normalExponent b.normalExponent).then
    (compare (a.alignedTo 127).significand (b.alignedTo 127).significand)

def order (a b : Exact) : Ordering :=
  match a.isZero, b.isZero with
  | true, true => .eq
  | true, false => if b.negative then .gt else .lt
  | false, true => if a.negative then .lt else .gt
  | false, false =>
    match a.negative, b.negative with
    | true, false => .lt
    | false, true => .gt
    | false, false => compareMagnitude a b
    | true, true => (compareMagnitude a b).swap

def integerMagnitude (a : Exact) (rounding : Rounding) : Kept × Bool :=
  if 0 ≤ a.exponent then
    let shifted :=
      if 128 ≤ a.exponent then 0 else (a.significand <<< a.exponent.toNat) % significandBound
    (⟨shifted, false⟩, 127 ≤ a.normalExponent)
  else (roundAt a.significand a.exponent false 0 rounding a.negative, false)

def magnitudeLimit (negative : Bool) : Nat :=
  if negative then 0x8000000000000000 else 0x7FFFFFFFFFFFFFFF

def toInteger (a : Exact) (rounding : Rounding) : RoundedInteger :=
  if a.isZero then ⟨0, false, false⟩
  else
    let (kept, wide) := a.integerMagnitude rounding
    let low := BitVec.ofNat 64 kept.significand
    { bits := if a.negative then -low else low
      inexact := kept.inexact
      overflow := wide || magnitudeLimit a.negative < kept.significand }

end Exact

end EV6
