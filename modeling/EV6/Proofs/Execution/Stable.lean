import EV6.Proofs.Core.Stable
import EV6.Proofs.Execution.Operations
import EV6.Proofs.Execution.Retirement
/-!
What is stable also holds however instructions execute and retire. What only some of them do, a
change of the floating control register, a move to an internal register or a change of mode, is left
to the property itself.
-/

namespace EV6

open Step Outcome

namespace Execution

variable {π γ : Type} {I : Core π → Prop}

def ofCore (f : Core π → γ) (e : Execution π) : γ := f e.core

theorem stable_ends {α : Type} {P : α → Prop} {x : ExecutionStep π α}
    (hx : Upholds (ofCore I) True P x) {e : Execution π} (he : I e.core) :
    (x e).Ends (fun _ t => I t.core) (fun _ t => I t.core) True :=
  (hx e he).mono (fun _ _ h => h.1) (fun _ _ h => h) id

theorem stable_left {α : Type} {o : Outcome (Execution π) Fault α}
    (ho : o.Ends (fun _ t => I t.core) (fun _ t => I t.core) True) {t : Core π}
    (ht : Core.leftBy o = some t) : I t := by
  obtain ⟨e, he, rfl⟩ := Core.leftBy_eq_some ht
  rcases ho.of_state he with ⟨_, h⟩ | ⟨_, h⟩ <;> exact h

theorem stable_update (f : Instruction → Instruction) :
    Upholds (ofCore I) True (fun _ => True) (update f : ExecutionStep π Unit) :=
  upholds_modify fun _ he => he

theorem stable_onCore {α : Type} {x : CoreStep π α} (hx : Upholds I True (fun _ => True) x) :
    Upholds (ofCore I) True (fun _ => True) (onCore x) :=
  hx.onPart (fun _ he => he) fun _ _ _ hc => hc

theorem stable_storeConditional {store : ExecutionStep π Unit}
    (hstore : Upholds (ofCore I) True (fun _ => True) store) :
    Upholds (ofCore I) True (fun _ => True) (storeConditional store) := by
  refine (stable_update _).bind fun _ _ => upholds_get.bind fun e _ => ?_
  split
  · exact hstore.bind fun _ _ => stable_update _
  · exact stable_update _

theorem stable_executeInteger (op : IntegerOp) :
    Upholds (ofCore I) True (fun _ => True) (executeInteger op : ExecutionStep π Unit) :=
  upholds_get.bind fun _ _ => (upholds_ofExcept _).bind fun _ _ => stable_update _

theorem stable_executeFloat (hcontrol : ∀ c control, I c → I { c with control }) (op : FloatOp) :
    Upholds (ofCore I) True (fun _ => True) (executeFloat op : ExecutionStep π Unit) :=
  upholds_get.bind fun _ _ =>
    Upholds.bind (upholds_modify fun e he => hcontrol e.core _ he) fun _ _ =>
    (upholds_ofExcept _).bind fun _ _ => stable_update _

theorem stable_enterCall :
    Upholds (ofCore I) True (fun _ => True) (PalOp.enterCall : ExecutionStep π Unit) := by
  refine upholds_get.bind fun e _ => ?_
  split
  · exact upholds_throw _
  · exact (upholds_check_any _).bind fun _ _ => stable_update _

end Execution

open Execution

def Operation.Service : Operation → Prop
  | .execute _ | .retire _ | .enterPal .. | .callPal _ | .palReturn _ | .writeIndex .. | .setModes .. =>
    False
  | _ => True

namespace Core

namespace Stable

variable {π : Type} {I : Core π → Prop} (hI : Stable I)

include hI

theorem queue (va pa : Word) (width : Width) (data : Word) :
    Upholds (ofCore I) True (fun _ => True)
      (Execution.queue va pa width data : ExecutionStep π Unit) :=
  upholds_get.bind fun _ _ => (stable_onCore (hI.queueStore _ _ _ _ _)).bind fun _ _ =>
    stable_update _

theorem resolve (va : Word) (width : Width) (access : AccessKind) :
    Upholds (ofCore I) True (fun _ => True)
      (Execution.resolve va width access : ExecutionStep π Word) :=
  upholds_get.bind fun _ _ => (stable_onCore (hI.checkAlignment _ _ _ _)).bind fun _ _ =>
    (stable_onCore (hI.translateData _ _ _)).bind fun _ _ =>
    (stable_update _).bind fun _ _ => upholds_pure trivial

theorem writeVirtual (va : Word) (width : Width) (data : Word) :
    Upholds (ofCore I) True (fun _ => True)
      (Execution.writeVirtual va width data : ExecutionStep π Unit) :=
  (hI.resolve _ _ _).bind fun _ _ => hI.queue _ _ _ _

theorem writePhysical (pa : Word) (width : Width) (data : Word) :
    Upholds (ofCore I) True (fun _ => True)
      (Execution.writePhysical pa width data : ExecutionStep π Unit) :=
  upholds_get.bind fun _ _ => (stable_onCore (hI.checkAlignment _ _ _ _)).bind fun _ _ =>
    hI.queue _ _ _ _

theorem storeOp (op : StoreOp) :
    Upholds (ofCore I) True (fun _ => True) (op.execute : ExecutionStep π Unit) := by
  refine upholds_get.bind fun e _ => ?_
  dsimp only
  split
  · exact stable_storeConditional (hI.writeVirtual _ _ _)
  · exact hI.writeVirtual _ _ _

theorem storeMemory :
    Upholds (ofCore I) True (fun _ => True) (PalOp.storeMemory : ExecutionStep π Unit) := by
  refine upholds_get.bind fun e _ => ?_
  dsimp only
  cases PalAccess.ofFunction e.instruction.function with
  | physical => exact hI.writePhysical _ _ _
  | physicalLocked => exact stable_storeConditional (hI.writePhysical _ _ _)
  | virtual => exact hI.writeVirtual _ _ _

variable [BlockDevice π]

theorem issue (va pa : Word) (width : Width) :
    Upholds (ofCore I) True (fun _ => True) (Execution.issue va pa width : ExecutionStep π Unit) :=
  upholds_get.bind fun _ _ => (stable_onCore (hI.issueLoad _ _ _ _)).bind fun _ _ =>
    stable_update _

theorem readVirtual (va : Word) (width : Width) :
    Upholds (ofCore I) True (fun _ => True)
      (Execution.readVirtual va width : ExecutionStep π Word) :=
  (hI.resolve _ _ _).bind fun _ _ => (hI.issue _ _ _).bind fun _ _ => upholds_pure trivial

theorem readPhysical (pa : Word) (width : Width) :
    Upholds (ofCore I) True (fun _ => True)
      (Execution.readPhysical pa width : ExecutionStep π Unit) :=
  upholds_get.bind fun _ _ => (stable_onCore (hI.checkAlignment _ _ _ _)).bind fun _ _ =>
    hI.issue _ _ _

theorem loadOp (op : LoadOp) :
    Upholds (ofCore I) True (fun _ => True) (op.execute : ExecutionStep π Unit) := by
  refine (stable_update _).bind fun _ _ => upholds_get.bind fun e _ => ?_
  refine (hI.readVirtual _ _).bind fun pa _ => ?_
  split
  · exact stable_update _
  · exact upholds_pure trivial

theorem loadMemory :
    Upholds (ofCore I) True (fun _ => True) (PalOp.loadMemory : ExecutionStep π Unit) := by
  refine upholds_get.bind fun e _ => (stable_update _).bind fun _ _ => ?_
  cases PalAccess.ofFunction e.instruction.function with
  | physical => exact hI.readPhysical _ _
  | physicalLocked => exact (hI.readPhysical _ _).bind fun _ _ => stable_update _
  | virtual => exact (hI.readVirtual _ _).discard

theorem miscOp (op : MiscOp) :
    Upholds (ofCore I) True (fun _ => True) (op.execute : ExecutionStep π Unit) := by
  cases op with
  | evictBlock => exact upholds_get.bind fun _ _ => stable_onCore (hI.evictBlock _)
  | readCycleCounter => exact upholds_modify fun _ he => he
  | readClearFlag | readSetFlag => exact upholds_modify fun _ he => hI.flag _ he
  | trapBarrier | exceptionBarrier | memoryBarrier | writeBarrier | prefetch | prefetchModify
  | writeHint | writeHintEvict => exact upholds_pure trivial

theorem execute {i : Instruction}
    (hcontrol : ∀ op, i.mnemonic = .float op → ∀ c control, I c → I { c with control })
    (hwrite : i.mnemonic = .pal .writeRegister →
      ∀ c, I c → I (c.writeIndex (PalOp.registerIndex i) i.b)) {c : Core π} (hc : I c) :
    (c.execute i).Ends (fun _ t => I t.core) (fun _ t => I t.core) True := by
  unfold Core.execute Execution.execute
  change (dispatch i.mnemonic ⟨c, { i with state := .waitingRetirement }⟩).Ends _ _ _
  unfold dispatch
  rw [bind_done (get_apply _)]
  split
  · exact hc
  · cases hm : i.mnemonic with
    | reserved => exact hc
    | pal op =>
      cases op with
      | call => exact stable_ends stable_enterCall hc
      | readRegister => exact hc
      | writeRegister => exact hwrite hm c hc
      | load => exact stable_ends hI.loadMemory hc
      | store => exact stable_ends hI.storeMemory hc
      | ret => exact hc
    | address op => exact hc
    | load op => exact stable_ends (hI.loadOp op) hc
    | store op => exact stable_ends (hI.storeOp op) hc
    | control op => exact hc
    | misc op => exact stable_ends (hI.miscOp op) hc
    | float op => exact stable_ends (stable_executeFloat (hcontrol op hm) op) hc
    | integer op => exact stable_ends (stable_executeInteger op) hc

omit [BlockDevice π] in
theorem commitLock (action : LockAction) {c : Core π} (hc : I c) : I (c.commitLock action) := by
  cases action with
  | none => exact hc
  | acquire va pa => exact hI.lock _ hc
  | clear => exact hI.lock _ hc

theorem commitStore :
    Upholds (ofCore I) True (fun _ => True) (Execution.commitStore : ExecutionStep π Unit) := by
  refine upholds_get.bind fun e _ => ?_
  dsimp only
  split
  · split
    · exact upholds_pure trivial
    · exact (stable_update _).bind fun _ _ => stable_onCore (hI.retireStore _)
  · exact upholds_pure trivial

theorem retire (i : Instruction) {J : Core π → Prop}
    (hcommit : ∀ c, I c → J ((committed c i).count (.countRetired i.mnemonic))) {c : Core π}
    (hc : I c) : (c.retire i).Ends (fun _ t => J t.core) (fun _ t => I t.core) True := by
  unfold Core.retire Execution.retire
  rw [bind_done (get_apply _)]
  dsimp only
  split
  · trivial
  · refine ends_bind (P := fun _ (t : Execution π) => I t.core) (hI.commitLock i.lock hc)
      fun _ t ht => ?_
    refine ends_bind (P := fun _ (t : Execution π) => I t.core) ?_ fun _ u hu => ?_
    · exact stable_ends hI.commitStore ht
    · have hdone := hcommit u.core hu
      unfold committed at hdone
      cases hbranch : i.branch with
      | none =>
        rw [hbranch] at hdone
        exact hdone
      | some outcome =>
        rw [hbranch] at hdone
        exact hdone

theorem service {op : Operation} (hop : op.Service) {c t : Core π} (hc : I c)
    (ht : c.operate op = some t) : I t := by
  cases op with
  | execute | retire | enterPal | callPal | palReturn | writeIndex | setModes => cases hop
  | poll pending =>
    cases ht
    exact hI.poll hc pending
  | fetch pc => exact (hI.fetchWord pc).of_state hc ht
  | readVirtual i va width => exact stable_left (stable_ends (hI.readVirtual va width) hc) ht
  | readPhysical i pa width => exact stable_left (stable_ends (hI.readPhysical pa width) hc) ht
  | writeVirtual i va width data =>
    exact stable_left (stable_ends (hI.writeVirtual va width data) hc) ht
  | writePhysical i pa width data =>
    exact stable_left (stable_ends (hI.writePhysical pa width data) hc) ht
  | retireStore slot => exact (hI.retireStore slot).of_state hc ht
  | translate opcode va access => exact (hI.translateData opcode va access).of_state hc ht
  | acquireLock | clearLock =>
    cases ht
    exact hI.lock _ hc
  | probeInvalidate pa => exact (hI.probeInvalidate pa).of_state hc ht
  | probeShare pa => exact (hI.probeShare pa).of_state hc ht
  | memory call => exact (hI.onMemory fun _ => MemoryHierarchy.enabled_call call).of_state hc ht
  | squash | clearQueues =>
    cases ht
    exact hI.mbox _ hc rfl

end Stable

end Core

end EV6
