import EV6.Proofs.Execution.Records

namespace EV6

open Step Outcome

namespace Execution

variable {π : Type}

def mnemonic (e : Execution π) : Mnemonic := e.instruction.mnemonic

theorem keeps_mnemonic {α : Type} {x : ExecutionStep π α} (hx : Keeps fixed x) : Keeps mnemonic x :=
  hx.map (·.2.1)

theorem mnemonic_setLock (lock : LockAction) :
    Keeps mnemonic (setLock lock : ExecutionStep π Unit) := fun _ => rfl

theorem mnemonic_storeConditional {store : ExecutionStep π Unit} (hstore : Keeps mnemonic store) :
    Keeps mnemonic (storeConditional store) := by
  refine (mnemonic_setLock .clear).bind fun _ => keeps_get.bind fun e => ?_
  split
  · exact hstore.bind fun _ => keeps_mnemonic (keeps_writeInt 1)
  · exact keeps_mnemonic (keeps_writeInt 0)

theorem mnemonic_storeOp (op : StoreOp) : Keeps mnemonic (op.execute : ExecutionStep π Unit) := by
  refine keeps_get.bind fun e => ?_
  dsimp only
  split
  · exact mnemonic_storeConditional (keeps_mnemonic (keeps_writeVirtual _ _ _))
  · exact keeps_mnemonic (keeps_writeVirtual _ _ _)

theorem mnemonic_storeMemory : Keeps mnemonic (PalOp.storeMemory : ExecutionStep π Unit) := by
  refine keeps_get.bind fun e => ?_
  dsimp only
  cases PalAccess.ofFunction e.instruction.function with
  | physical => exact keeps_mnemonic (keeps_writePhysical _ _ _)
  | physicalLocked => exact mnemonic_storeConditional (keeps_mnemonic (keeps_writePhysical _ _ _))
  | virtual => exact keeps_mnemonic (keeps_writeVirtual _ _ _)

variable [BlockDevice π]

theorem mnemonic_loadOp (op : LoadOp) : Keeps mnemonic (op.execute : ExecutionStep π Unit) := by
  refine (keeps_mnemonic keeps_update).bind fun _ => keeps_get.bind fun e => ?_
  refine (keeps_mnemonic (keeps_readVirtual _ _)).bind fun pa => ?_
  split
  · exact mnemonic_setLock _
  · exact keeps_pure _

theorem mnemonic_loadMemory : Keeps mnemonic (PalOp.loadMemory : ExecutionStep π Unit) := by
  refine keeps_get.bind fun e => (keeps_mnemonic keeps_update).bind fun _ => ?_
  cases PalAccess.ofFunction e.instruction.function with
  | physical => exact keeps_mnemonic (keeps_readPhysical _ _)
  | physicalLocked =>
    exact (keeps_mnemonic (keeps_readPhysical _ _)).bind fun _ => mnemonic_setLock _
  | virtual => exact keeps_mnemonic (keeps_readVirtual _ _).discard

theorem mnemonic_dispatch (m : Mnemonic) : Keeps mnemonic (dispatch m : ExecutionStep π Unit) := by
  intro e
  unfold dispatch
  rw [bind_done (get_apply e)]
  split
  · rfl
  · cases m with
    | reserved => rfl
    | pal op =>
      cases op with
      | call => exact keeps_mnemonic keeps_enterCall e
      | readRegister | writeRegister | ret => rfl
      | load => exact mnemonic_loadMemory e
      | store => exact mnemonic_storeMemory e
    | address op => cases op <;> rfl
    | load op => exact mnemonic_loadOp op e
    | store op => exact mnemonic_storeOp op e
    | control op => cases op <;> rfl
    | misc op => exact keeps_mnemonic op.keeps_execute e
    | float op => exact keeps_mnemonic (keeps_executeFloat op) e
    | integer op => exact keeps_mnemonic (keeps_executeInteger op) e

end Execution

open Execution

namespace Instruction

def Settled (i : Instruction) : Prop :=
  i.mnemonic.isConditionalBranch = true → i.branch.isSome = true

theorem Settled.lasts {i j : Instruction} (hi : i.Settled) (hj : i.Lasts j) : j.Settled := by
  intro hm
  rw [hj.mnemonic] at hm
  rw [hj.branch]
  exact hi hm

variable {π : Type} [BlockDevice π]

theorem settled_execute (c : Core π) (i : Instruction) :
    (c.execute i).Ends (fun _ e => e.instruction.Settled) (fun _ e => e.instruction.Settled) True := by
  have hkept := mnemonic_dispatch i.mnemonic (⟨c, { i with state := .waitingRetirement }⟩ : Execution π)
  cases hm : i.mnemonic.isConditionalBranch with
  | false =>
    have hplain {e : Execution π} (he : e.instruction.mnemonic = i.mnemonic) :
        e.instruction.Settled := by
      intro hcond
      rw [he, hm] at hcond
      cases hcond
    exact hkept.mono (fun _ _ he => hplain he) (fun _ _ he => hplain he) id
  | true =>
    unfold Core.execute Execution.execute
    cases hi : i.mnemonic with
    | control op =>
      change (dispatch i.mnemonic ⟨c, { i with state := .waitingRetirement }⟩).Ends _ _ _
      rw [hi]
      intro _
      cases op <;> rfl
    | _ =>
      rw [hi] at hm
      cases hm

variable (π) in
inductive HasExecuted : Instruction → Prop
  | execute {c : Core π} {i : Instruction} {e : Execution π}
      (he : (c.execute i).state? = some e) : HasExecuted e.instruction
  | poll {c : Core π} {pending : List Instruction} {n : Nat} {i j : Instruction}
      (hi : HasExecuted i) (hpending : pending[n]? = some i)
      (hj : (c.poll pending).1.instructions[n]? = some j) : HasExecuted j
  | retire {c : Core π} {i : Instruction} {e : Execution π} (hi : HasExecuted i)
      (he : (c.retire i).state? = some e) : HasExecuted e.instruction

theorem HasExecuted.settled {i : Instruction} (h : HasExecuted π i) : i.Settled := by
  induction h with
  | execute he => rcases (settled_execute _ _).of_state he with ⟨_, h⟩ | ⟨_, h⟩ <;> exact h
  | poll hi hpending hj ih =>
    obtain ⟨i', hi', hlasts⟩ := deliverAll_lasts hj
    rw [hpending] at hi'
    cases hi'
    exact ih.lasts hlasts
  | retire hi he ih =>
    rcases (Core.retire_ends _ _).of_state he with ⟨_, h⟩ | ⟨_, h⟩ <;> exact ih.lasts h.record

end Instruction

end EV6
