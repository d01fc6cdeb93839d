import EV6.Fault.Breach
import EV6.Integer.Unit
/-!
The integer unit with its arithmetic in machine words: where a number on the way does not fit, the
operation stops. Additions, subtractions and multiplications that may wrap do not stop.
-/

namespace EV6

namespace Quadword

def fit (op : MachineOperation) (x : Int) : Except Breach Int :=
  if -0x8000000000000000 ≤ x && x < 0x8000000000000000 then .ok x else .error (.overflow op)

def add (a b : Int) : Except Breach Int := fit .add (a + b)

def sub (a b : Int) : Except Breach Int := fit .subtract (a - b)

def mul (a b : Int) : Except Breach Int := fit .multiply (a * b)

theorem fit_eq_ok_iff {op : MachineOperation} {x y : Int} :
    fit op x = .ok y ↔ x = y ∧ -0x8000000000000000 ≤ y ∧ y < 0x8000000000000000 := by
  unfold fit
  split <;> simp_all <;> omega

end Quadword

namespace Word.Bounded

def carryInto (high : Nat) (sum addend : Word) : Except Breach Nat :=
  if sum < addend then Machine.add high 1 else .ok high

def wideProduct (a b : Word) : Except Breach WideProduct := do
  let lowLow ← Machine.mul (lowHalf a).toNat (lowHalf b).toNat
  let lowHigh ← Machine.mul (lowHalf a).toNat (highHalf b).toNat
  let highLow ← Machine.mul (highHalf a).toNat (lowHalf b).toNat
  let highHigh ← Machine.mul (highHalf a).toNat (highHalf b).toNat
  let high ← Machine.add highHigh (lowHigh >>> 32)
  let high ← Machine.add high (highLow >>> 32)
  let addend := BitVec.ofNat 64 lowHigh <<< 32
  let middle := BitVec.ofNat 64 lowLow + addend
  let high ← carryInto high middle addend
  let addend := BitVec.ofNat 64 highLow <<< 32
  let low := middle + addend
  let high ← carryInto high low addend
  return ⟨low, BitVec.ofNat 64 high⟩

end Word.Bounded

namespace Integer.Bounded

def arithmetic (op : ArithmeticOp) (a b : Word) : Except Breach (Except Fault Word) :=
  match op with
  | .addChecked .long => (Quadword.add (signedLong a) (signedLong b)).map checkedLong
  | .subChecked .long => (Quadword.sub (signedLong a) (signedLong b)).map checkedLong
  | .mulChecked .long => (Quadword.mul (signedLong a) (signedLong b)).map checkedLong
  | .mulChecked .quad =>
    (Word.Bounded.wideProduct a b).map fun p =>
      let s := p.signed a b
      if s.overflow then .error overflowTrap else .ok s.low
  | .mulHigh => (Word.Bounded.wideProduct a b).map fun p => .ok p.high
  | _ => .ok (Integer.arithmetic op a b)

def execute (m : Mnemonic) (a b : Word) (bigEndian : Bool) :
    Except Breach (Except Fault (Option Word)) :=
  match m with
  | .integer (.arithmetic op) => (arithmetic op a b).map fun result => result.map some
  | m => .ok (Integer.execute m a b bigEndian)

end Integer.Bounded

end EV6
