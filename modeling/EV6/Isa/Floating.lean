import EV6.Isa.Integer

namespace EV6

inductive FloatFormat where
  | f
  | d
  | g
  | s
  | t
  | x
  deriving DecidableEq, Repr

namespace FloatFormat

def all : List FloatFormat := [.f, .d, .g, .s, .t, .x]

def letter : FloatFormat → String
  | f => "F"
  | d => "D"
  | g => "G"
  | s => "S"
  | t => "T"
  | x => "X"

def ofLetter? (s : String) : Option FloatFormat := all.find? (·.letter == s)

end FloatFormat

inductive IeeeFormat where
  | s
  | t
  deriving DecidableEq, Repr

namespace IeeeFormat

def all : List IeeeFormat := [.s, .t]

def tag : IeeeFormat → FloatFormat
  | s => .s
  | t => .t

def letter (f : IeeeFormat) : String := f.tag.letter

end IeeeFormat

inductive VaxFormat where
  | f
  | g
  | d
  deriving DecidableEq, Repr

namespace VaxFormat

def all : List VaxFormat := [.f, .g, .d]

def tag : VaxFormat → FloatFormat
  | f => .f
  | g => .g
  | d => .d

end VaxFormat

inductive VaxArithmeticFormat where
  | f
  | g
  deriving DecidableEq, Repr

namespace VaxArithmeticFormat

def all : List VaxArithmeticFormat := [.f, .g]

def format : VaxArithmeticFormat → VaxFormat
  | f => .f
  | g => .g

def letter (v : VaxArithmeticFormat) : String := v.format.tag.letter

end VaxArithmeticFormat

inductive FloatArithmetic where
  | add
  | sub
  | mul
  | div
  deriving DecidableEq, Repr

namespace FloatArithmetic

def all : List FloatArithmetic := [.add, .sub, .mul, .div]

def stem : FloatArithmetic → String
  | add => "ADD"
  | sub => "SUB"
  | mul => "MUL"
  | div => "DIV"

end FloatArithmetic

inductive FloatRelation where
  | unordered
  | equal
  | less
  | lessEqual
  deriving DecidableEq, Repr

namespace FloatRelation

def all : List FloatRelation := [.unordered, .equal, .less, .lessEqual]

def suffix : FloatRelation → String
  | unordered => "UN"
  | equal => "EQ"
  | less => "LT"
  | lessEqual => "LE"

end FloatRelation

inductive OrderRelation where
  | equal
  | less
  | lessEqual
  deriving DecidableEq, Repr

namespace OrderRelation

def all : List OrderRelation := [.equal, .less, .lessEqual]

def relation : OrderRelation → FloatRelation
  | equal => .equal
  | less => .less
  | lessEqual => .lessEqual

end OrderRelation

inductive VaxOp where
  | arithmetic (op : FloatArithmetic) (format : VaxArithmeticFormat)
  | squareRoot (format : VaxArithmeticFormat)
  | compare (relation : OrderRelation)
  | dToG
  | gToF
  | gToD
  | gToQuad
  | ofQuad (format : VaxArithmeticFormat)
  deriving DecidableEq, Repr

namespace VaxOp

def all : List VaxOp :=
  (VaxArithmeticFormat.all.flatMap fun v =>
      FloatArithmetic.all.map (arithmetic · v) ++ [squareRoot v, ofQuad v])
    ++ OrderRelation.all.map compare ++ [dToG, gToF, gToD, gToQuad]

def name : VaxOp → String
  | arithmetic op v => op.stem ++ v.letter
  | squareRoot v => "SQRT" ++ v.letter
  | compare r => "CMPG" ++ r.relation.suffix
  | dToG => "CVTDG"
  | gToF => "CVTGF"
  | gToD => "CVTGD"
  | gToQuad => "CVTGQ"
  | ofQuad v => "CVTQ" ++ v.letter

end VaxOp

inductive IeeeOp where
  | arithmetic (op : FloatArithmetic) (format : IeeeFormat)
  | squareRoot (format : IeeeFormat)
  | compare (relation : FloatRelation)
  | tToS
  | sToT
  | tToQuad
  | ofQuad (format : IeeeFormat)
  deriving DecidableEq, Repr

namespace IeeeOp

def all : List IeeeOp :=
  (IeeeFormat.all.flatMap fun f =>
      FloatArithmetic.all.map (arithmetic · f) ++ [squareRoot f, ofQuad f])
    ++ FloatRelation.all.map compare ++ [tToS, sToT, tToQuad]

def name : IeeeOp → String
  | arithmetic op f => op.stem ++ f.letter
  | squareRoot f => "SQRT" ++ f.letter
  | compare r => "CMPT" ++ r.suffix
  | tToS => "CVTTS"
  | sToT => "CVTST"
  | tToQuad => "CVTTQ"
  | ofQuad f => "CVTQ" ++ f.letter

end IeeeOp

inductive SignCopy where
  | sign
  | negatedSign
  | signAndExponent
  deriving DecidableEq, Repr

namespace SignCopy

def all : List SignCopy := [.sign, .negatedSign, .signAndExponent]

def name : SignCopy → String
  | sign => "CPYS"
  | negatedSign => "CPYSN"
  | signAndExponent => "CPYSE"

end SignCopy

inductive FloatOp where
  | vax (op : VaxOp)
  | ieee (op : IeeeOp)
  | integerToF
  | integerToS
  | integerToT
  | floatToS
  | floatToT
  | copySign (what : SignCopy)
  | conditionalMove (test : ZeroTest)
  | writeControl
  | readControl
  | longToQuad
  | quadToLong
  deriving DecidableEq, Repr

namespace FloatOp

def all : List FloatOp :=
  VaxOp.all.map vax ++ IeeeOp.all.map ieee ++ SignCopy.all.map copySign
    ++ ZeroTest.all.map conditionalMove
    ++ [integerToF, integerToS, integerToT, floatToS, floatToT, writeControl, readControl,
      longToQuad, quadToLong]

def name : FloatOp → String
  | vax op => op.name
  | ieee op => op.name
  | integerToF => "ITOFF"
  | integerToS => "ITOFS"
  | integerToT => "ITOFT"
  | floatToS => "FTOIS"
  | floatToT => "FTOIT"
  | copySign c => c.name
  | conditionalMove t => "FCMOV" ++ t.suffix
  | writeControl => "MT_FPCR"
  | readControl => "MF_FPCR"
  | longToQuad => "CVTLQ"
  | quadToLong => "CVTQL"

end FloatOp

end EV6
