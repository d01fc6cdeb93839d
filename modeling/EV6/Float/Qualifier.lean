import EV6.Word.Basic
/-!
The qualifiers in the function field of a floating instruction: the rounding qualifier in bits 7:6
and the trap qualifiers in bits 10:8; and the rounding rules they select.
-/

namespace EV6

inductive RoundingQualifier where
  | chopped
  | minusInfinity
  | normal
  | dynamic
  deriving DecidableEq, Repr

namespace RoundingQualifier

def name : RoundingQualifier → String
  | chopped => "Chopped"
  | minusInfinity => "MinusInfinity"
  | normal => "Normal"
  | dynamic => "Dynamic"

def ofFunction (function : Longword) : RoundingQualifier :=
  match function.toNat / 0x40 % 4 with
  | 0 => chopped
  | 1 => minusInfinity
  | 2 => normal
  | _ => dynamic

end RoundingQualifier

structure TrapQualifier where
  /-- `/U`, or `/V` on a conversion to an integer. -/
  underflow : Bool
  /-- `/S`. -/
  software : Bool
  /-- `/I`, which has effect only together with `/S`. -/
  inexact : Bool
  deriving DecidableEq, Repr

namespace TrapQualifier

def none : TrapQualifier := ⟨false, false, false⟩

def ofFunction (function : Longword) : TrapQualifier :=
  { underflow := function.getLsbD 8
    software := function.getLsbD 10
    inexact := function.getLsbD 9 && function.getLsbD 10 }

end TrapQualifier

inductive DynamicRounding where
  | chopped
  | minusInfinity
  | normal
  | plusInfinity
  deriving DecidableEq, Repr

namespace DynamicRounding

def name : DynamicRounding → String
  | chopped => "Chopped"
  | minusInfinity => "MinusInfinity"
  | normal => "Normal"
  | plusInfinity => "PlusInfinity"

end DynamicRounding

inductive Rounding where
  | chopped
  | minusInfinity
  | plusInfinity
  | nearestEven
  | nearestAway
  deriving DecidableEq, Repr

namespace Rounding

def all : List Rounding := [.chopped, .minusInfinity, .plusInfinity, .nearestEven, .nearestAway]

def name : Rounding → String
  | chopped => "Chopped"
  | minusInfinity => "MinusInfinity"
  | plusInfinity => "PlusInfinity"
  | nearestEven => "NearestEven"
  | nearestAway => "NearestAway"

def ofName? (s : String) : Option Rounding := all.find? (·.name == s)

def ofDynamic : DynamicRounding → Rounding
  | .chopped => chopped
  | .minusInfinity => minusInfinity
  | .normal => nearestEven
  | .plusInfinity => plusInfinity

def ieee (q : RoundingQualifier) (dynamic : DynamicRounding) : Rounding :=
  match q with
  | .chopped => chopped
  | .minusInfinity => minusInfinity
  | .normal => nearestEven
  | .dynamic => ofDynamic dynamic

def vax : RoundingQualifier → Rounding
  | .chopped => chopped
  | _ => nearestAway

end Rounding

end EV6
