import EV6.Float.Flags

namespace EV6

structure FloatControl where
  bits : Word
  deriving DecidableEq, Repr

namespace FloatControl

def summaryBit : Word := 1 <<< 63

/-- Bits 47:0 read as zero. -/
def implemented : Word := 0xFFFF000000000000

/-- Bits 57:52, the accumulated exceptions. -/
def statusMask : Word := 0x03F0000000000000

/-- The register after reset: round to nearest, no status, every trap enabled. -/
def reset : FloatControl := ⟨2 <<< 58⟩

def ofWord (w : Word) : FloatControl := ⟨w &&& implemented⟩

def write (w : Word) : FloatControl :=
  let kept := w &&& implemented
  ⟨if kept &&& statusMask = 0 then kept &&& ~~~summaryBit else kept ||| summaryBit⟩

def dynamicRounding (c : FloatControl) : DynamicRounding :=
  match (c.bits >>> 58).toNat % 4 with
  | 0 => .chopped
  | 1 => .minusInfinity
  | 2 => .normal
  | _ => .plusInfinity

def denormalsToZero (c : FloatControl) : Bool := c.bits.getLsbD 48

def underflowToZero (c : FloatControl) : Bool := c.bits.getLsbD 60

def status (f : FloatFlags) : Word :=
  (if f.invalid then 1 <<< 52 else 0) ||| (if f.divideByZero then 1 <<< 53 else 0)
    ||| (if f.overflow then 1 <<< 54 else 0) ||| (if f.underflow then 1 <<< 55 else 0)
    ||| (if f.inexact then 1 <<< 56 else 0) ||| (if f.integerOverflow then 1 <<< 57 else 0)

def record (c : FloatControl) (f : FloatFlags) : FloatControl :=
  if f.isEmpty then c else ⟨c.bits ||| status f ||| summaryBit⟩

def disabled (c : FloatControl) (f : FloatFlags) : FloatFlags :=
  f.inter
    { invalid := c.bits.getLsbD 49
      divideByZero := c.bits.getLsbD 50
      overflow := c.bits.getLsbD 51
      underflow := c.bits.getLsbD 61
      inexact := c.bits.getLsbD 62
      integerOverflow := false }

def ieeeTrap? (c : FloatControl) (f : FloatFlags) (q : TrapQualifier) : Option ExceptionSummary :=
  let enabled := f.enabledBy q .ieee
  let trapping := if q.software then enabled.without (c.disabled enabled) else enabled
  trapping.trap? q.software

end FloatControl

end EV6
