import EV6.Float.MemoryFormat
import EV6.Isa.Floating
import EV6.Storage.Bytes
import EV6.Text.Hex

namespace EV6

inductive RegisterValue where
  | int (bits : Word)
  | float (format : FloatFormat) (bits : Word)
  deriving DecidableEq, Repr

namespace RegisterValue

def zero : RegisterValue := int 0

def bits : RegisterValue → Word
  | int b => b
  | float _ b => b

def format? : RegisterValue → Option FloatFormat
  | int _ => none
  | float format _ => some format

def isInt (v : RegisterValue) : Bool := v.format?.isNone

def text : RegisterValue → String
  | int b => Hex.wide b
  | float format b => format.letter ++ ":" ++ Hex.wide b

end RegisterValue

inductive Operand where
  | register (value : RegisterValue)
  | literal (value : Byte)
  deriving DecidableEq, Repr

namespace Operand

def zero : Operand := register .zero

def value : Operand → RegisterValue
  | register v => v
  | literal l => .int (l.setWidth 64)

def bits (o : Operand) : Word := o.value.bits

def literal? : Operand → Option Byte
  | register _ => none
  | literal l => some l

def withRegister (o : Operand) (v : RegisterValue) : Operand :=
  match o with
  | register _ => register v
  | literal l => literal l

end Operand

inductive LoadCompletion where
  | none
  | zeroExtendByte
  | zeroExtendWord
  | signExtendLong
  | convertF
  | convertG
  | convertS
  | floatT
  deriving DecidableEq, Repr

namespace LoadCompletion

def all : List LoadCompletion :=
  [.none, .zeroExtendByte, .zeroExtendWord, .signExtendLong, .convertF, .convertG, .convertS,
    .floatT]

def name : LoadCompletion → String
  | none => "None"
  | zeroExtendByte => "ZeroExtendByte"
  | zeroExtendWord => "ZeroExtendWord"
  | signExtendLong => "SignExtendLong"
  | convertF => "ConvertF"
  | convertG => "ConvertG"
  | convertS => "ConvertS"
  | floatT => "FloatT"

def ofName? (s : String) : Option LoadCompletion := all.find? (·.name == s)

def apply (c : LoadCompletion) (raw : Word) : RegisterValue :=
  match c with
  | none => .int raw
  | zeroExtendByte => .int (Word.zeroExtend raw .byte)
  | zeroExtendWord => .int (Word.zeroExtend raw .word)
  | signExtendLong => .int (Word.signExtend raw .long)
  | convertF => .float .f (MemoryFormat.loadF (raw.setWidth 32))
  | convertG => .float .g (MemoryFormat.loadG raw)
  | convertS => .float .s (MemoryFormat.loadS (raw.setWidth 32))
  | floatT => .float .t raw

end LoadCompletion

end EV6
