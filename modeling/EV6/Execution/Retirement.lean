import EV6.Core.Privileged
import EV6.Execution.Basic
/-!
Retirement: an instruction that executed without a fault commits the effects it left, in program
order. The lock changes first, then a store is written, then a branch trains the predictor or the
mode changes, and then the instruction is counted.
-/

namespace EV6

namespace Mnemonic

def loads : Mnemonic → Bool
  | load _ | pal .load => true
  | _ => false

def stores : Mnemonic → Bool
  | store _ | pal .store => true
  | _ => false

end Mnemonic

namespace Instruction

def isReady (i : Instruction) : Bool :=
  i.state == .waitingRetirement && !(i.mnemonic.loads && i.slot.isSome)

end Instruction

namespace Core

variable {π : Type}

def commitLock (action : LockAction) (c : Core π) : Core π :=
  match action with
  | .none => c
  | .acquire va pa => c.acquireLock va pa
  | .clear => c.clearLock

def learn (i : Instruction) (taken : Bool) (c : Core π) : Core π :=
  let p := i.prediction.getD (c.predictor.predict i.pc)
  { c with
    predictor := c.predictor.train i.pc taken p.localVote p.globalVote
    statistics :=
      if p.taken = taken then { c.statistics with predicted := c.statistics.predicted + 1 }
      else { c.statistics with mispredicted := c.statistics.mispredicted + 1 } }

def commitBranch (i : Instruction) (outcome : BranchOutcome) (c : Core π) : Core π :=
  match i.mnemonic with
  | .pal .call => c.callPal i.nextPc
  | .pal .ret => c.palReturn i.a
  | m => if m.isConditionalBranch then c.learn i outcome.taken else c

end Core

namespace Statistics

def countRetired (m : Mnemonic) (s : Statistics) : Statistics :=
  let s := { s with instructionsRetired := s.instructionsRetired + 1 }
  match m with
  | .load _ => { s with loadRetired := s.loadRetired + 1 }
  | .store _ => { s with storeRetired := s.storeRetired + 1 }
  | .control _ => { s with branchRetired := s.branchRetired + 1 }
  | .float _ => { s with floatRetired := s.floatRetired + 1 }
  | .reserved | .pal _ | .misc _ => { s with systemRetired := s.systemRetired + 1 }
  | .address _ | .integer _ => { s with integerRetired := s.integerRetired + 1 }

end Statistics

namespace Execution

variable {π : Type}

def onCoreState (f : Core π → Core π) : ExecutionStep π Unit :=
  modify fun e => { e with core := f e.core }

def commitStore [BlockDevice π] : ExecutionStep π Unit := do
  let i := (← get).instruction
  if i.mnemonic.stores then
    match i.slot with
    | none => pure ()
    | some slot =>
      update fun i => { i with slot := none }
      onCore (Core.retireStore slot)

def retire [BlockDevice π] : ExecutionStep π Unit := do
  let i := (← get).instruction
  if !i.isReady then Step.check (.error (.unfinished i.seq))
  onCoreState (Core.commitLock i.lock)
  commitStore
  match i.branch with
  | none => pure ()
  | some outcome => onCoreState (Core.commitBranch i outcome)
  onCoreState (·.count (.countRetired i.mnemonic))
  update fun i => { i with state := .retired }

end Execution

namespace Core

def retire {π : Type} [BlockDevice π] (c : Core π) (i : Instruction) :
    Outcome (Execution π) Fault Unit :=
  Execution.retire ⟨c, i⟩

end Core

end EV6
