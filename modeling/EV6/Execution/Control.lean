import EV6.Float.Condition
import EV6.Integer.Logic
import EV6.Isa.Instruction
/-!
Branches and jumps. Branch targets are relative to the next instruction; jump targets come from a
register, whose two low bits are ignored. Unconditional transfers deliver the return address.
-/

namespace EV6

namespace Instruction

def relativeTarget (i : Instruction) : Word := i.nextPc + (i.displacement <<< 2)

def registerTarget (i : Instruction) : Word := i.a &&& ~~~3

def resolved (i : Instruction) (taken : Bool) (target : Word) : Instruction :=
  { i with branch := some ⟨taken, target⟩ }

end Instruction

namespace ControlOp

def execute (op : ControlOp) (i : Instruction) : Instruction :=
  match op with
  | br | bsr => (i.withInt i.nextPc).resolved true i.relativeTarget
  | jmp | jsr | ret | jsrCoroutine => (i.withInt i.nextPc).resolved true i.registerTarget
  | branch c => i.resolved (Integer.condition c i.a) i.relativeTarget
  | floatBranch t => i.resolved (FloatCondition.holds t i.a) i.relativeTarget

end ControlOp

end EV6
