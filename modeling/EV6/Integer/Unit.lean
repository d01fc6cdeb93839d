import EV6.Integer.Arithmetic
import EV6.Integer.Bytes
import EV6.Integer.Logic
import EV6.Integer.Multimedia
import EV6.Isa.Mnemonic
/-!
The integer unit and its parts. The unit reserves the instructions it does not compute; so does its
arithmetic part, while the other parts have no result, or zero, for instructions of another part.
-/

namespace EV6.Integer

def execute (m : Mnemonic) (a b : Word) (bigEndian : Bool) : Except Fault (Option Word) :=
  match m with
  | .integer (.arithmetic op) => (arithmetic op a b).map some
  | .integer (.logic op) => .ok (some (logic op a b))
  | .integer (.conditionalMove c) => .ok (conditionalMove c a b)
  | .integer (.shift op) => .ok (some (shift op a b))
  | .integer (.bytes op) => .ok (some (bytes op a b bigEndian))
  | .integer (.multimedia op) => .ok (some (multimedia op a b))
  | _ => .error .opcodeReserved

inductive Part where
  | arithmetic
  | logic
  | conditionalMove
  | shifts
  | bytes
  | multimedia
  deriving DecidableEq, Repr

namespace Part

def all : List Part := [.arithmetic, .logic, .conditionalMove, .shifts, .bytes, .multimedia]

def name : Part → String
  | arithmetic => "arithmetic"
  | logic => "logic"
  | conditionalMove => "conditional_move"
  | shifts => "shifts"
  | bytes => "byte"
  | multimedia => "multimedia"

def ofName? (s : String) : Option Part := all.find? (·.name == s)

end Part

def executePart (p : Part) (m : Mnemonic) (a b : Word) (bigEndian : Bool) :
    Except Fault (Option Word) :=
  match p, m with
  | .arithmetic, .integer (.arithmetic op) => (arithmetic op a b).map some
  | .arithmetic, _ => .error .opcodeReserved
  | .logic, .integer (.logic op) => .ok (some (logic op a b))
  | .conditionalMove, .integer (.conditionalMove c) => .ok (conditionalMove c a b)
  | .conditionalMove, _ => .ok none
  | .shifts, .integer (.shift op) => .ok (some (shift op a b))
  | .bytes, .integer (.bytes op) => .ok (some (bytes op a b bigEndian))
  | .multimedia, .integer (.multimedia op) => .ok (some (multimedia op a b))
  | _, _ => .ok (some 0)

end EV6.Integer
