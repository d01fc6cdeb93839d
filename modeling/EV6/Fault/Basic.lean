import EV6.Fault.Summary
import EV6.Text.Hex

namespace EV6

inductive MissKind where
  | single
  | double
  deriving DecidableEq, Repr

namespace MissKind

def name : MissKind → String
  | single => "Single"
  | double => "Double"

end MissKind

inductive Fault where
  | arithmeticTraps (sum : ExceptionSummary)
  | illegalOperand
  | accessViolation (va : Word)
  | translationNotValid (va : Word)
  | faultOnRead (va : Word)
  | faultOnWrite (va : Word)
  | faultOnExecute (va : Word)
  | itbMiss (va : Word)
  | dtbMiss (va : Word) (kind : MissKind)
  | unaligned (va : Word)
  | opcodeReserved
  | machineCheck (pa : Word)
  deriving DecidableEq, Repr

namespace Fault

def name : Fault → String
  | arithmeticTraps _ => "ArithmeticTraps"
  | illegalOperand => "IllegalOperand"
  | accessViolation _ => "AccessViolation"
  | translationNotValid _ => "TranslationNotValid"
  | faultOnRead _ => "FaultOnRead"
  | faultOnWrite _ => "FaultOnWrite"
  | faultOnExecute _ => "FaultOnExecute"
  | itbMiss _ => "ItbMiss"
  | dtbMiss _ _ => "DtbMiss"
  | unaligned _ => "Unaligned"
  | opcodeReserved => "OpcodeReserved"
  | machineCheck _ => "MachineCheck"

def message : Fault → String
  | arithmeticTraps sum => "arithmetic trap (" ++ sum.text ++ ")"
  | illegalOperand => "illegal operand"
  | accessViolation va => "access violation at " ++ Hex.word va
  | translationNotValid va => "translation not valid at " ++ Hex.word va
  | faultOnRead va => "fault on read at " ++ Hex.word va
  | faultOnWrite va => "fault on write at " ++ Hex.word va
  | faultOnExecute va => "fault on execute at " ++ Hex.word va
  | itbMiss va => "ITB miss at " ++ Hex.word va
  | dtbMiss va kind => "DTB miss (" ++ kind.name ++ ") at " ++ Hex.word va
  | unaligned va => "unaligned access at " ++ Hex.word va
  | opcodeReserved => "reserved opcode"
  | machineCheck pa => "machine check at physical address " ++ Hex.word pa

def palEntry : Fault → Word
  | dtbMiss _ .single => 0x300
  | dtbMiss _ .double => 0x100
  | itbMiss _ => 0x580
  | accessViolation _ | translationNotValid _ | faultOnRead _ | faultOnWrite _ => 0x380
  | faultOnExecute _ => 0x480
  | unaligned _ => 0x400
  | opcodeReserved => 0x200
  | arithmeticTraps _ | illegalOperand => 0x500
  | machineCheck _ => 0x080

def virtualAddress? : Fault → Option Word
  | accessViolation va | translationNotValid va | faultOnRead va | faultOnWrite va
  | faultOnExecute va | itbMiss va | dtbMiss va _ | unaligned va => some va
  | arithmeticTraps _ | illegalOperand | opcodeReserved | machineCheck _ => none

end Fault

structure BusError where
  addr : Word
  length : Nat
  deriving DecidableEq, Repr

namespace BusError

def message (e : BusError) : String :=
  "no memory at " ++ Hex.word e.addr ++ " (+" ++ toString e.length ++ " bytes)"

def fault (e : BusError) : Fault := .machineCheck e.addr

end BusError

end EV6
