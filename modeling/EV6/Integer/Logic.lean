import EV6.Isa.Integer

namespace EV6.Integer

def logic (op : LogicOp) (a b : Word) : Word :=
  match op with
  | .and => a &&& b
  | .bic => a &&& ~~~b
  | .bis => a ||| b
  | .ornot => a ||| ~~~b
  | .xor => a ^^^ b
  | .eqv => a ^^^ ~~~b

def zeroTest (t : ZeroTest) (a : Word) : Bool :=
  match t with
  | .eq => a == 0
  | .ne => a != 0
  | .lt => a.msb
  | .ge => !a.msb
  | .le => a.msb || a == 0
  | .gt => !(a.msb || a == 0)

def condition (c : Condition) (a : Word) : Bool :=
  match c with
  | .lowSet => a.getLsbD 0
  | .lowClear => !a.getLsbD 0
  | .zero t => zeroTest t a

def conditionalMove (c : Condition) (a b : Word) : Option Word :=
  if condition c a then some b else none

def shift (op : ShiftOp) (a b : Word) : Word :=
  let amount := b.toNat % 64
  match op with
  | .left => a <<< amount
  | .right => a >>> amount
  | .rightArithmetic => a.sshiftRight amount

end EV6.Integer
