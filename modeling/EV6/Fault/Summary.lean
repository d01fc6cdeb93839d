import EV6.Word.Basic

namespace EV6

structure ExceptionSummary where
  software : Bool
  invalid : Bool
  divideByZero : Bool
  overflow : Bool
  underflow : Bool
  inexact : Bool
  integerOverflow : Bool
  deriving DecidableEq, Repr

namespace ExceptionSummary

def none : ExceptionSummary := ⟨false, false, false, false, false, false, false⟩

def ofIntegerOverflow : ExceptionSummary := { none with integerOverflow := true }

def toList (s : ExceptionSummary) : List Bool :=
  [s.software, s.invalid, s.divideByZero, s.overflow, s.underflow, s.inexact, s.integerOverflow]

def names : List String := ["SWC", "INV", "DZE", "OVF", "UNF", "INE", "IOV"]

def bits (s : ExceptionSummary) : Nat :=
  s.toList.foldr (fun b acc => b.toNat + 2 * acc) 0

def ofBits (n : Nat) : ExceptionSummary :=
  { software := n.testBit 0
    invalid := n.testBit 1
    divideByZero := n.testBit 2
    overflow := n.testBit 3
    underflow := n.testBit 4
    inexact := n.testBit 5
    integerOverflow := n.testBit 6 }

theorem ofBits_bits (s : ExceptionSummary) : ofBits s.bits = s := by
  obtain ⟨a, b, c, d, e, f, g⟩ := s
  revert a b c d e f g
  decide

def isEmpty (s : ExceptionSummary) : Bool := s == none

def union (s t : ExceptionSummary) : ExceptionSummary :=
  { software := s.software || t.software
    invalid := s.invalid || t.invalid
    divideByZero := s.divideByZero || t.divideByZero
    overflow := s.overflow || t.overflow
    underflow := s.underflow || t.underflow
    inexact := s.inexact || t.inexact
    integerOverflow := s.integerOverflow || t.integerOverflow }

def contains (s t : ExceptionSummary) : Bool := s.union t == s

def present (s : ExceptionSummary) : List String :=
  (names.zip s.toList).filterMap fun (name, set) => if set then some name else Option.none

def text (s : ExceptionSummary) : String :=
  if s.present.isEmpty then "none" else "|".intercalate s.present

end ExceptionSummary

end EV6
