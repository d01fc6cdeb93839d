import EV6.Float.Ieee.Operand

namespace EV6

structure IeeeContext where
  rounding : Rounding
  traps : TrapQualifier
  control : FloatControl
  deriving DecidableEq, Repr

namespace IeeeContext

def ofFunction (function : Longword) (control : FloatControl) : IeeeContext :=
  { rounding := Rounding.ieee (RoundingQualifier.ofFunction function) control.dynamicRounding
    traps := TrapQualifier.ofFunction function
    control }

def invalid : FloatResult := ⟨NotANumber.canonical, .ofInvalid⟩

def exactZero (negative : Bool) : FloatResult := ⟨IeeeFormat.zero negative, .none⟩

def infinite (negative : Bool) : FloatResult := ⟨IeeeFormat.infinity negative, .none⟩

def operand (ctx : IeeeContext) (format : IeeeFormat) (reg : Word) : Except FloatResult IeeeValue :=
  match format.unpack reg with
  | .denormal v =>
    if ctx.control.denormalsToZero then .ok (.zero v.negative)
    else if ctx.traps.software then .ok (.finite v)
    else .error invalid
  | value => .ok value

def operands (ctx : IeeeContext) (format : IeeeFormat) (a b : Word) :
    Except FloatResult (IeeeValue × IeeeValue) := do
  let x ← ctx.operand format a
  let y ← ctx.operand format b
  return (x, y)

def nanBits? : IeeeValue → Option Word
  | .notANumber bits => some bits
  | _ => none

def nan? (a b : IeeeValue) : Option FloatResult :=
  let x := (nanBits? a).getD 0
  let y := (nanBits? b).getD 0
  (NotANumber.propagate x y).map fun bits =>
    ⟨bits, if NotANumber.isSignaling x || NotANumber.isSignaling y then .ofInvalid else .none⟩

def overflowsToInfinity (rounding : Rounding) (negative : Bool) : Bool :=
  match rounding with
  | .chopped => false
  | .minusInfinity => negative
  | .plusInfinity => !negative
  | .nearestEven | .nearestAway => true

def overflowed (ctx : IeeeContext) (format : IeeeFormat) (negative : Bool) : FloatResult :=
  { bits :=
      if overflowsToInfinity ctx.rounding negative then IeeeFormat.infinity negative
      else format.maxFinite negative
    flags := { FloatFlags.none with overflow := true, inexact := true } }

def underflowed (ctx : IeeeContext) (format : IeeeFormat) (r : Rounded) : FloatResult :=
  if ctx.traps.software && !ctx.control.underflowToZero then
    { bits := format.pack r.value
      flags := { FloatFlags.none with
        underflow := r.inexact || ctx.traps.underflow
        inexact := r.inexact } }
  else
    { bits := IeeeFormat.zero r.value.negative
      flags := { FloatFlags.none with underflow := true, inexact := true } }

def finish (ctx : IeeeContext) (format : IeeeFormat) (exact : Truncated) : FloatResult :=
  let r := exact.value.round exact.sticky format.limits ctx.rounding
  if r.overflow then ctx.overflowed format exact.value.negative
  else if r.tiny then ctx.underflowed format r
  else ⟨format.pack r.value, .ofInexact r.inexact⟩

def addValues (ctx : IeeeContext) (format : IeeeFormat) (a b : IeeeValue) : FloatResult :=
  let minusZero := ctx.rounding == .minusInfinity
  match a, b with
  | .infinity x, .infinity y => if x = y then infinite x else invalid
  | .infinity x, _ => infinite x
  | _, .infinity y => infinite y
  | .zero x, .zero y => exactZero (if x = y then x else minusZero)
  | a, b =>
    let sum := a.exact.add b.exact
    if sum.value.isZero && !sum.sticky then exactZero minusZero else ctx.finish format sum

def mulValues (ctx : IeeeContext) (format : IeeeFormat) (a b : IeeeValue) : FloatResult :=
  let negative := a.negative != b.negative
  match a, b with
  | .infinity _, .zero _ | .zero _, .infinity _ => invalid
  | .infinity _, _ | _, .infinity _ => infinite negative
  | .zero _, _ | _, .zero _ => exactZero negative
  | a, b => ctx.finish format ⟨a.exact.mul b.exact, false⟩

def divValues (ctx : IeeeContext) (format : IeeeFormat) (a b : IeeeValue) : FloatResult :=
  let negative := a.negative != b.negative
  match a, b with
  | .infinity _, .infinity _ | .zero _, .zero _ => invalid
  | .infinity _, _ => infinite negative
  | _, .infinity _ => exactZero negative
  | _, .zero _ => ⟨IeeeFormat.infinity negative, .ofDivideByZero⟩
  | .zero _, _ => exactZero negative
  | a, b => ctx.finish format (a.exact.div b.exact)

def binary (ctx : IeeeContext) (format : IeeeFormat) (a b : Word)
    (op : IeeeValue → IeeeValue → FloatResult) : FloatResult :=
  match ctx.operands format a b with
  | .error r => r
  | .ok (x, y) => (nan? x y).getD (op x y)

def add (ctx : IeeeContext) (format : IeeeFormat) (a b : Word) : FloatResult :=
  ctx.binary format a b (ctx.addValues format)

def sub (ctx : IeeeContext) (format : IeeeFormat) (a b : Word) : FloatResult :=
  ctx.binary format a b fun x y => ctx.addValues format x y.negate

def mul (ctx : IeeeContext) (format : IeeeFormat) (a b : Word) : FloatResult :=
  ctx.binary format a b (ctx.mulValues format)

def div (ctx : IeeeContext) (format : IeeeFormat) (a b : Word) : FloatResult :=
  ctx.binary format a b (ctx.divValues format)

def arithmetic (ctx : IeeeContext) (op : FloatArithmetic) (format : IeeeFormat) (a b : Word) :
    FloatResult :=
  match op with
  | .add => ctx.add format a b
  | .sub => ctx.sub format a b
  | .mul => ctx.mul format a b
  | .div => ctx.div format a b

def squareRootValue (ctx : IeeeContext) (format : IeeeFormat) (b : IeeeValue) : FloatResult :=
  match b with
  | .zero n => exactZero n
  | .infinity false => infinite false
  | .infinity true => invalid
  | b => if b.negative then invalid else ctx.finish format b.exact.squareRoot

def squareRoot (ctx : IeeeContext) (format : IeeeFormat) (b : Word) : FloatResult :=
  match ctx.operand format b with
  | .error r => r
  | .ok y => (nan? (.zero false) y).getD (ctx.squareRootValue format y)

end IeeeContext

end EV6
