import EV6.Branch.Tournament
import EV6.Isa.Encoding
import EV6.Isa.Value

namespace EV6

inductive InstructionState where
  | executing
  | waitingRetirement
  | retired
  deriving DecidableEq, Repr

namespace InstructionState

def name : InstructionState → String
  | executing => "Executing"
  | waitingRetirement => "WaitingRetirement"
  | retired => "Retired"

end InstructionState

inductive LockAction where
  | none
  | acquire (va pa : Word)
  | clear
  deriving DecidableEq, Repr

structure BranchOutcome where
  taken : Bool
  target : Word
  deriving DecidableEq, Repr

structure Instruction where
  seq : Nat
  pc : Word
  raw : Longword
  opcode : Opcode
  function : Longword
  mnemonic : Mnemonic
  ra : Nat
  rb : Nat
  rc : Nat
  first : RegisterValue
  second : Operand
  /-- The result; before execution, the old value of the destination. -/
  dest : RegisterValue
  /-- Sign-extended; in bytes for memory access and in instructions for branches. -/
  displacement : Word
  slot : Option Nat
  state : InstructionState
  completion : LoadCompletion
  lock : LockAction
  prediction : Option Prediction
  branch : Option BranchOutcome
  va : Option Word
  deriving DecidableEq, Repr

namespace Instruction

def ofMnemonic (mnemonic : Mnemonic) (seq : Nat) : Instruction :=
  { seq, pc := 0, raw := 0, opcode := 0, function := 0, mnemonic, ra := 0, rb := 0, rc := 0
    first := .zero, second := .zero, dest := .zero, displacement := 0, slot := none
    state := .executing, completion := .none, lock := .none, prediction := none, branch := none
    va := none }

def opcodeOf (raw : Longword) : Opcode := (raw >>> 26).setWidth 8

def lowBits (raw : Longword) (count : Nat) : Word := (raw.setWidth count).signExtend 64

def fieldsOf (raw : Longword) : Longword × Word :=
  match (opcodeOf raw).toNat with
  | 0x10 | 0x11 | 0x12 | 0x13 | 0x1C => ((raw >>> 5) &&& 0x7F, 0)
  | 0x14 | 0x15 | 0x16 | 0x17 => ((raw >>> 5) &&& 0x7FF, 0)
  | 0x18 | 0x19 | 0x1D => (raw &&& 0xFFFF, 0)
  | 0x1A | 0x1E => ((raw >>> 14) &&& 0x3, 0)
  | 0x00 => (raw &&& 0x03FFFFFF, 0)
  | 0x1B | 0x1F => ((raw >>> 12) &&& 0xF, lowBits raw 12)
  | opcode => (0, lowBits raw (if 0x30 ≤ opcode then 21 else 16))

def hasLiteralForm (opcode : Opcode) : Bool :=
  match opcode.toNat with
  | 0x10 | 0x11 | 0x12 | 0x13 | 0x1C => true
  | _ => false

def secondOf (raw : Longword) : Operand :=
  if hasLiteralForm (opcodeOf raw) && raw.getLsbD 12 then .literal ((raw >>> 13).setWidth 8)
  else .zero

def decode (raw : Longword) (pc : Word) (seq : Nat) : Instruction :=
  let opcode := opcodeOf raw
  let (function, displacement) := fieldsOf raw
  { ofMnemonic (Mnemonic.ofFields opcode function) seq with
    pc, raw, opcode, function, displacement
    ra := (raw >>> 21).toNat % 32
    rb := (raw >>> 16).toNat % 32
    rc := raw.toNat % 32
    second := secondOf raw }

def a (i : Instruction) : Word := i.first.bits

def b (i : Instruction) : Word := i.second.bits

def nextPc (i : Instruction) : Word := i.pc + 4

def withInt (i : Instruction) (value : Word) : Instruction := { i with dest := .int value }

end Instruction

end EV6
