import EV6.Word.Basic

namespace EV6

inductive Length where
  | long
  | quad
  deriving DecidableEq, Repr

namespace Length

def all : List Length := [.long, .quad]

def letter : Length → String
  | .long => "L"
  | .quad => "Q"

end Length

inductive Scale where
  | one
  | four
  | eight
  deriving DecidableEq, Repr

namespace Scale

def all : List Scale := [.one, .four, .eight]

def shift : Scale → Nat
  | .one => 0
  | .four => 2
  | .eight => 3

def stem : Scale → String
  | .one => ""
  | .four => "S4"
  | .eight => "S8"

end Scale

inductive Relation where
  | eq
  | lt
  | le
  | ult
  | ule
  deriving DecidableEq, Repr

namespace Relation

def all : List Relation := [.eq, .lt, .le, .ult, .ule]

def name : Relation → String
  | .eq => "CMPEQ"
  | .lt => "CMPLT"
  | .le => "CMPLE"
  | .ult => "CMPULT"
  | .ule => "CMPULE"

end Relation

inductive ArithmeticOp where
  | add (length : Length) (scale : Scale)
  | sub (length : Length) (scale : Scale)
  | mul (length : Length)
  | addChecked (length : Length)
  | subChecked (length : Length)
  | mulChecked (length : Length)
  | mulHigh
  | compare (relation : Relation)
  | compareBytes
  | countOnes
  | countLeadingZeros
  | countTrailingZeros
  deriving DecidableEq, Repr

namespace ArithmeticOp

def all : List ArithmeticOp :=
  (Length.all.flatMap fun l => Scale.all.flatMap fun s => [add l s, sub l s])
    ++ Length.all.flatMap (fun l => [mul l, addChecked l, subChecked l, mulChecked l])
    ++ Relation.all.map compare
    ++ [mulHigh, compareBytes, countOnes, countLeadingZeros, countTrailingZeros]

def name : ArithmeticOp → String
  | add l s => s.stem ++ "ADD" ++ l.letter
  | sub l s => s.stem ++ "SUB" ++ l.letter
  | mul l => "MUL" ++ l.letter
  | addChecked l => "ADD" ++ l.letter ++ "/V"
  | subChecked l => "SUB" ++ l.letter ++ "/V"
  | mulChecked l => "MUL" ++ l.letter ++ "/V"
  | mulHigh => "UMULH"
  | compare r => r.name
  | compareBytes => "CMPBGE"
  | countOnes => "CTPOP"
  | countLeadingZeros => "CTLZ"
  | countTrailingZeros => "CTTZ"

end ArithmeticOp

inductive LogicOp where
  | and
  | bic
  | bis
  | ornot
  | xor
  | eqv
  deriving DecidableEq, Repr

namespace LogicOp

def all : List LogicOp := [.and, .bic, .bis, .ornot, .xor, .eqv]

def name : LogicOp → String
  | and => "AND"
  | bic => "BIC"
  | bis => "BIS"
  | ornot => "ORNOT"
  | xor => "XOR"
  | eqv => "EQV"

end LogicOp

inductive ZeroTest where
  | eq
  | ne
  | lt
  | ge
  | le
  | gt
  deriving DecidableEq, Repr

namespace ZeroTest

def all : List ZeroTest := [.eq, .ne, .lt, .ge, .le, .gt]

def suffix : ZeroTest → String
  | eq => "EQ"
  | ne => "NE"
  | lt => "LT"
  | ge => "GE"
  | le => "LE"
  | gt => "GT"

end ZeroTest

inductive Condition where
  | lowSet
  | lowClear
  | zero (test : ZeroTest)
  deriving DecidableEq, Repr

namespace Condition

def all : List Condition := [.lowSet, .lowClear] ++ ZeroTest.all.map zero

def suffix : Condition → String
  | lowSet => "LBS"
  | lowClear => "LBC"
  | zero t => t.suffix

end Condition

inductive ShiftOp where
  | left
  | right
  | rightArithmetic
  deriving DecidableEq, Repr

namespace ShiftOp

def all : List ShiftOp := [.left, .right, .rightArithmetic]

def name : ShiftOp → String
  | left => "SLL"
  | right => "SRL"
  | rightArithmetic => "SRA"

end ShiftOp

inductive FieldAction where
  | extract
  | insert
  | mask
  deriving DecidableEq, Repr

namespace FieldAction

def all : List FieldAction := [.extract, .insert, .mask]

def stem : FieldAction → String
  | extract => "EXT"
  | insert => "INS"
  | mask => "MSK"

end FieldAction

inductive HighWidth where
  | word
  | long
  | quad
  deriving DecidableEq, Repr

namespace HighWidth

def all : List HighWidth := [.word, .long, .quad]

def toWidth : HighWidth → Width
  | word => .word
  | long => .long
  | quad => .quad

end HighWidth

inductive ByteOp where
  | low (action : FieldAction) (width : Width)
  | high (action : FieldAction) (width : HighWidth)
  | zap
  | zapNot
  | signExtendByte
  | signExtendWord
  deriving DecidableEq, Repr

namespace ByteOp

def all : List ByteOp :=
  (FieldAction.all.flatMap fun a => Width.all.map (low a) ++ HighWidth.all.map (high a))
    ++ [zap, zapNot, signExtendByte, signExtendWord]

def letter : Width → String
  | .byte => "B"
  | .word => "W"
  | .long => "L"
  | .quad => "Q"

def name : ByteOp → String
  | low a w => a.stem ++ letter w ++ "L"
  | high a w => a.stem ++ letter w.toWidth ++ "H"
  | zap => "ZAP"
  | zapNot => "ZAPNOT"
  | signExtendByte => "SEXTB"
  | signExtendWord => "SEXTW"

end ByteOp

inductive Extremum where
  | min
  | max
  deriving DecidableEq, Repr

namespace Extremum

def all : List Extremum := [.min, .max]

def stem : Extremum → String
  | min => "MIN"
  | max => "MAX"

end Extremum

structure Lanes where
  words : Bool
  signed : Bool
  deriving DecidableEq, Repr

namespace Lanes

def all : List Lanes := [⟨false, false⟩, ⟨false, true⟩, ⟨true, false⟩, ⟨true, true⟩]

def bits (l : Lanes) : Nat := if l.words then 16 else 8

def count (l : Lanes) : Nat := if l.words then 4 else 8

theorem bits_mul_count (l : Lanes) : l.bits * l.count = 64 := by
  obtain ⟨w, s⟩ := l
  cases w <;> rfl

def suffix (l : Lanes) : String :=
  (if l.signed then "S" else "U") ++ (if l.words then "W4" else "B8")

end Lanes

inductive MultimediaOp where
  | extremum (which : Extremum) (lanes : Lanes)
  | pixelError
  | packWords
  | packLongs
  | unpackWords
  | unpackLongs
  deriving DecidableEq, Repr

namespace MultimediaOp

def all : List MultimediaOp :=
  (Extremum.all.flatMap fun e => Lanes.all.map (extremum e))
    ++ [pixelError, packWords, packLongs, unpackWords, unpackLongs]

def name : MultimediaOp → String
  | extremum e l => e.stem ++ l.suffix
  | pixelError => "PERR"
  | packWords => "PKWB"
  | packLongs => "PKLB"
  | unpackWords => "UNPKBW"
  | unpackLongs => "UNPKBL"

end MultimediaOp

end EV6
