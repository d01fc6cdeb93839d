import EV6.Word.Basic

namespace EV6

inductive ProcessorMode where
  | kernel
  | executive
  | supervisor
  | user
  deriving DecidableEq, Repr

namespace ProcessorMode

def ofBits (w : Word) : ProcessorMode :=
  match w.toNat % 4 with
  | 0 => kernel
  | 1 => executive
  | 2 => supervisor
  | _ => user

def toNat : ProcessorMode → Nat
  | kernel => 0
  | executive => 1
  | supervisor => 2
  | user => 3

def toWord (m : ProcessorMode) : Word := BitVec.ofNat 64 m.toNat

theorem ofBits_toWord (m : ProcessorMode) : ofBits m.toWord = m := by cases m <;> rfl

def name : ProcessorMode → String
  | kernel => "Kernel"
  | executive => "Executive"
  | supervisor => "Supervisor"
  | user => "User"

end ProcessorMode

end EV6
