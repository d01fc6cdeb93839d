import EV6.Float.Condition
import EV6.Float.Ieee.Conversion
import EV6.Float.Vax
import EV6.Isa.Instruction
/-!
What the floating instructions do. Each has a result for its destination, or traps and has none.
IEEE operations record the exceptions they raise in the control register whether they trap or not;
VAX operations leave it alone.
-/

namespace EV6

structure FloatEffect where
  control : FloatControl
  /-- The value for the destination, which may be left as it is. -/
  result : Except Fault (Option RegisterValue)

namespace SignCopy

def mask : SignCopy → Word
  | sign | negatedSign => 0x8000000000000000
  | signAndExponent => 0xFFF0000000000000

def apply (c : SignCopy) (a b : Word) : Word :=
  let a := if c = negatedSign then ~~~a else a
  (a &&& c.mask) ||| (b &&& ~~~c.mask)

end SignCopy

namespace VaxOp

def compute (op : VaxOp) (a b : Word) (rounding : Rounding) : Except Fault FloatResult :=
  match op with
  | arithmetic op v => Vax.arithmetic op v.format a b rounding
  | squareRoot v => Vax.squareRoot v.format b rounding
  | compare r => Vax.compare r.relation a b
  | dToG => Vax.convert .d .g b rounding
  | gToF => Vax.convert .g .f b rounding
  | gToD => Vax.convert .g .d b rounding
  | gToQuad => Vax.toQuad b rounding
  | ofQuad v => .ok (Vax.ofQuad v.format b rounding)

def value (op : VaxOp) (bits : Word) : RegisterValue :=
  match op with
  | arithmetic _ v | squareRoot v | ofQuad v => .float v.format.tag bits
  | compare _ | dToG => .float .g bits
  | gToF => .float .f bits
  | gToD => .float .d bits
  | gToQuad => .int bits

def execute (op : VaxOp) (function : Longword) (a b : Word) : Except Fault RegisterValue := do
  let r ← op.compute a b (Rounding.vax (RoundingQualifier.ofFunction function))
  match r.flags.vaxTrap? (TrapQualifier.ofFunction function) with
  | some sum => .error (.arithmeticTraps sum)
  | none => .ok (op.value r.bits)

end VaxOp

namespace IeeeOp

def compute (op : IeeeOp) (ctx : IeeeContext) (a b : Word) : FloatResult :=
  match op with
  | arithmetic op f => ctx.arithmetic op f a b
  | squareRoot f => ctx.squareRoot f b
  | compare r => ctx.compare r a b
  | tToS => ctx.tToS b
  | sToT => ctx.sToT b
  | tToQuad => ctx.toQuad b
  | ofQuad f => ctx.ofQuad f b

def value (op : IeeeOp) (bits : Word) : RegisterValue :=
  match op with
  | arithmetic _ f | squareRoot f | ofQuad f => .float f.tag bits
  | compare _ | sToT => .float .t bits
  | tToS => .float .s bits
  | tToQuad => .int bits

def execute (op : IeeeOp) (function : Longword) (a b : Word) (control : FloatControl) :
    FloatEffect :=
  let r := op.compute (IeeeContext.ofFunction function control) a b
  let control := control.record r.flags
  { control
    result :=
      match control.ieeeTrap? r.flags (TrapQualifier.ofFunction function) with
      | some sum => .error (.arithmeticTraps sum)
      | none => .ok (some (op.value r.bits)) }

end IeeeOp

namespace FloatOp

def narrow (function : Longword) (b : Word) (control : FloatControl) : FloatEffect :=
  let value : RegisterValue := .float .t (MemoryFormat.longwordToRegister (b.setWidth 32))
  if b.signExtend .long = b then ⟨control, .ok (some value)⟩
  else
    let q := TrapQualifier.ofFunction function
    let summary := { ExceptionSummary.ofIntegerOverflow with software := q.software }
    { control := control.record .ofIntegerOverflow
      result := if q.underflow then .error (.arithmeticTraps summary) else .ok (some value) }

def execute (op : FloatOp) (i : Instruction) (control : FloatControl) : FloatEffect :=
  let a := i.a
  let b := i.b
  let write (v : RegisterValue) : FloatEffect := ⟨control, .ok (some v)⟩
  match op with
  | vax op => ⟨control, (op.execute i.function a b).map some⟩
  | ieee op => op.execute i.function a b control
  | integerToF => write (.float .f (MemoryFormat.loadF (a.setWidth 32)))
  | integerToS => write (.float .s (MemoryFormat.loadS (a.setWidth 32)))
  | integerToT => write (.float .t a)
  | floatToS => write (.int (MemoryFormat.floatToS a))
  | floatToT => write (.int a)
  | copySign c => write (.float (i.second.value.format?.getD .t) (c.apply a b))
  | conditionalMove t =>
    if FloatCondition.holds t a then write i.second.value else ⟨control, .ok none⟩
  | writeControl => ⟨.write a, .ok none⟩
  | readControl => write (.float .t control.bits)
  | longToQuad => write (.int (MemoryFormat.registerToLongword b))
  | quadToLong => narrow i.function b control

end FloatOp

end EV6
