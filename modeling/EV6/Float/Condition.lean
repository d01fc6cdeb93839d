import EV6.Isa.Mnemonic
/-!
The tests of floating branches and conditional moves. Both zeros equal zero, and the sign bit alone
orders every other image.
-/

namespace EV6.FloatCondition

def isZero (bits : Word) : Bool := bits &&& ~~~(1 <<< 63 : Word) == 0

def holds (t : ZeroTest) (bits : Word) : Bool :=
  match t with
  | .eq => isZero bits
  | .ne => !isZero bits
  | .lt => bits.msb && !isZero bits
  | .ge => !bits.msb || isZero bits
  | .le => bits.msb || isZero bits
  | .gt => !bits.msb && !isZero bits

def test? : Mnemonic → Option ZeroTest
  | .control (.floatBranch t) => some t
  | .float (.conditionalMove t) => some t
  | _ => none

def holdsFor (m : Mnemonic) (bits : Word) : Bool := (test? m).any fun t => holds t bits

end EV6.FloatCondition
