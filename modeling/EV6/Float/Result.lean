import EV6.Float.Flags
import EV6.Isa.Floating

namespace EV6

structure FloatResult where
  bits : Word
  flags : FloatFlags
  deriving DecidableEq, Repr

namespace FloatRelation

def holds : FloatRelation → Option Ordering → Bool
  | .unordered, o => o.isNone
  | .equal, o => o == some .eq
  | .less, o => o == some .lt
  | .lessEqual, o => o == some .lt || o == some .eq

def ordered : FloatRelation → Bool
  | .less | .lessEqual => true
  | .unordered | .equal => false

end FloatRelation

def compareTrue : Word := 0x4000000000000000

def compareBits (b : Bool) : Word := if b then compareTrue else 0

end EV6
