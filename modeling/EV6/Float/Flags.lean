import EV6.Float.Qualifier
import EV6.Fault.Summary

namespace EV6

structure FloatFlags where
  invalid : Bool
  divideByZero : Bool
  overflow : Bool
  underflow : Bool
  inexact : Bool
  integerOverflow : Bool
  deriving DecidableEq, Repr

namespace FloatFlags

def none : FloatFlags := ⟨false, false, false, false, false, false⟩

def ofInvalid : FloatFlags := { none with invalid := true }

def ofDivideByZero : FloatFlags := { none with divideByZero := true }

def ofOverflow : FloatFlags := { none with overflow := true }

def ofUnderflow : FloatFlags := { none with underflow := true }

def ofInexact (b : Bool) : FloatFlags := { none with inexact := b }

def ofIntegerOverflow : FloatFlags := { none with integerOverflow := true }

def toList (f : FloatFlags) : List Bool :=
  [f.invalid, f.divideByZero, f.overflow, f.underflow, f.inexact, f.integerOverflow]

def names : List String := ["INV", "DZE", "OVF", "UNF", "INE", "IOV"]

def present (f : FloatFlags) : List String :=
  (names.zip f.toList).filterMap fun (name, set) => if set then some name else Option.none

def ofNames (xs : List String) : FloatFlags :=
  { invalid := xs.contains "INV"
    divideByZero := xs.contains "DZE"
    overflow := xs.contains "OVF"
    underflow := xs.contains "UNF"
    inexact := xs.contains "INE"
    integerOverflow := xs.contains "IOV" }

def bits (f : FloatFlags) : Nat :=
  f.toList.foldr (fun b acc => b.toNat + 2 * acc) 0

def isEmpty (f : FloatFlags) : Bool := f == none

def map₂ (op : Bool → Bool → Bool) (f g : FloatFlags) : FloatFlags :=
  { invalid := op f.invalid g.invalid
    divideByZero := op f.divideByZero g.divideByZero
    overflow := op f.overflow g.overflow
    underflow := op f.underflow g.underflow
    inexact := op f.inexact g.inexact
    integerOverflow := op f.integerOverflow g.integerOverflow }

def inter : FloatFlags → FloatFlags → FloatFlags := map₂ and

def without : FloatFlags → FloatFlags → FloatFlags := map₂ fun a b => a && !b

inductive Kind where
  | ieee
  | vax
  deriving DecidableEq, Repr

def trappable (q : TrapQualifier) (kind : Kind) : FloatFlags :=
  { invalid := true
    divideByZero := true
    overflow := true
    underflow := q.underflow
    inexact := q.inexact && kind == .ieee
    integerOverflow := q.underflow }

def enabledBy (f : FloatFlags) (q : TrapQualifier) (kind : Kind) : FloatFlags :=
  f.inter (trappable q kind)

def summary (f : FloatFlags) (software : Bool) : ExceptionSummary :=
  { software
    invalid := f.invalid
    divideByZero := f.divideByZero
    overflow := f.overflow
    underflow := f.underflow
    inexact := f.inexact
    integerOverflow := f.integerOverflow }

def trap? (f : FloatFlags) (software : Bool) : Option ExceptionSummary :=
  if f.isEmpty then Option.none else some (f.summary software)

def vaxTrap? (f : FloatFlags) (q : TrapQualifier) : Option ExceptionSummary :=
  (f.enabledBy q .vax).trap? q.software

end FloatFlags

end EV6
