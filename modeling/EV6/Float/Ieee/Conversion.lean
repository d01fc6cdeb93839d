import EV6.Float.Ieee.Arithmetic

namespace EV6

namespace IeeeValue

def order? : IeeeValue → IeeeValue → Option Ordering
  | .notANumber _, _ | _, .notANumber _ => none
  | .infinity x, .infinity y => some (if x = y then .eq else if x then .lt else .gt)
  | .infinity x, _ => some (if x then .lt else .gt)
  | _, .infinity y => some (if y then .gt else .lt)
  | a, b => some (a.exact.order b.exact)

end IeeeValue

namespace IeeeContext

def compare (ctx : IeeeContext) (relation : FloatRelation) (a b : Word) : FloatResult :=
  match ctx.operands .t a b with
  | .error r => r
  | .ok (x, y) =>
    let order := x.order? y
    let invalid :=
      if relation.ordered then order.isNone
      else NotANumber.isSignaling a || NotANumber.isSignaling b
    ⟨compareBits (relation.holds order), if invalid then .ofInvalid else .none⟩

def toQuad (ctx : IeeeContext) (b : Word) : FloatResult :=
  match ctx.operand .t b with
  | .error r => { r with bits := 0 }
  | .ok (.notANumber _) | .ok (.infinity _) => ⟨0, .ofInvalid⟩
  | .ok value =>
    let r := value.exact.toInteger ctx.rounding
    { bits := r.bits
      flags := { FloatFlags.none with integerOverflow := r.overflow, inexact := r.inexact } }

def ofQuad (ctx : IeeeContext) (format : IeeeFormat) (b : Word) : FloatResult :=
  if b = 0 then exactZero false else ctx.finish format ⟨Exact.ofInt b.toInt, false⟩

def convert (ctx : IeeeContext) (source target : IeeeFormat) (b : Word) : FloatResult :=
  match ctx.operand source b with
  | .error r => r
  | .ok (.notANumber bits) =>
    ⟨NotANumber.quiet bits, if NotANumber.isSignaling bits then .ofInvalid else .none⟩
  | .ok (.infinity n) => infinite n
  | .ok (.zero n) => exactZero n
  | .ok value => ctx.finish target ⟨value.exact, false⟩

def tToS (ctx : IeeeContext) (b : Word) : FloatResult := ctx.convert .t .s b

def sToT (ctx : IeeeContext) (b : Word) : FloatResult := ctx.convert .s .t b

end IeeeContext

end EV6
