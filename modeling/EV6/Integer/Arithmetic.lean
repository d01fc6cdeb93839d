import EV6.Fault.Basic
import EV6.Isa.Integer
import EV6.Word.Product

namespace EV6.Integer

def overflowTrap : Fault := .arithmeticTraps .ofIntegerOverflow

def signedLong (a : Word) : Int := (a.setWidth 32).toInt

def checkedLong (full : Int) : Except Fault Word :=
  let narrow := Word.signExtend (BitVec.ofInt 64 full) .long
  if narrow.toInt = full then .ok narrow else .error overflowTrap

def ofLength (l : Length) (value : Word) : Word :=
  match l with
  | .long => Word.signExtend value .long
  | .quad => value

def addChecked (l : Length) (a b : Word) : Except Fault Word :=
  match l with
  | .long => checkedLong (signedLong a + signedLong b)
  | .quad => if Word.addOverflows a b (a + b) then .error overflowTrap else .ok (a + b)

def subChecked (l : Length) (a b : Word) : Except Fault Word :=
  match l with
  | .long => checkedLong (signedLong a - signedLong b)
  | .quad => if Word.subOverflows a b (a - b) then .error overflowTrap else .ok (a - b)

def mulChecked (l : Length) (a b : Word) : Except Fault Word :=
  match l with
  | .long => checkedLong (signedLong a * signedLong b)
  | .quad =>
    let p := Word.signedProduct a b
    if p.overflow then .error overflowTrap else .ok p.low

def related (r : Relation) (a b : Word) : Bool :=
  match r with
  | .eq => a == b
  | .lt => a.slt b
  | .le => a.sle b
  | .ult => a.ult b
  | .ule => a.ule b

def compareBytes (a b : Word) : Word :=
  (List.range 8).foldl
    (fun acc i => if (Word.byteAt b i).ule (Word.byteAt a i) then acc ||| (1#64 <<< i) else acc) 0

def arithmetic (op : ArithmeticOp) (a b : Word) : Except Fault Word :=
  match op with
  | .add l s => .ok (ofLength l ((a <<< s.shift) + b))
  | .sub l s => .ok (ofLength l ((a <<< s.shift) - b))
  | .mul l => .ok (ofLength l (a * b))
  | .addChecked l => addChecked l a b
  | .subChecked l => subChecked l a b
  | .mulChecked l => mulChecked l a b
  | .mulHigh => .ok (Word.wideProduct a b).high
  | .compare r => .ok (Word.ofBool (related r a b))
  | .compareBytes => .ok (compareBytes a b)
  | .countOnes => .ok (BitVec.ofNat 64 (Word.onesCount b))
  | .countLeadingZeros => .ok (BitVec.ofNat 64 (Word.leadingZeros b))
  | .countTrailingZeros => .ok (BitVec.ofNat 64 (Word.trailingZeros b))

end EV6.Integer
