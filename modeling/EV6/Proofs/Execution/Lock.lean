import EV6.Execution.Dispatch
import EV6.Proofs.Core.Lock

namespace EV6

open Step Outcome

namespace Instruction

def isLoadLocked (i : Instruction) : Bool :=
  match i.mnemonic with
  | .load op => op.locks
  | .pal .load => PalAccess.ofFunction i.function == .physicalLocked
  | _ => false

def isStoreConditional (i : Instruction) : Bool :=
  match i.mnemonic with
  | .store op => op.conditional
  | .pal .store => PalAccess.ofFunction i.function == .physicalLocked
  | _ => false

def fixed (i : Instruction) : Mnemonic × Longword × LockAction := (i.mnemonic, i.function, i.lock)

end Instruction

namespace Execution

variable {π : Type}

def fixed (e : Execution π) : Lock × Mnemonic × Longword × LockAction :=
  (e.core.lock, e.instruction.fixed)

theorem keeps_update {f : Instruction → Instruction}
    (h : ∀ i, (f i).fixed = i.fixed := by intro i; rfl) :
    Keeps fixed (update f : ExecutionStep π Unit) :=
  keeps_modify fun e => congrArg (Prod.mk e.core.lock) (h e.instruction)

theorem keeps_onCore {α : Type} {x : CoreStep π α} (h : Keeps Core.lock x) :
    Keeps fixed (onCore x) := by
  intro e
  refine (ends_onPart (h e.core)).mono ?_ ?_ id
  · rintro _ _ ⟨c, hc, rfl⟩
    exact congrArg (Prod.mk · e.instruction.fixed) hc
  · rintro _ _ ⟨c, hc, rfl⟩
    exact congrArg (Prod.mk · e.instruction.fixed) hc

end Execution

namespace Mbox

variable {π : Type}

theorem answerLoad_fixed (i : Instruction) (slot : Nat) (access : Access)
    (f : StoreQueue.Forwarded) (m : Mbox π) :
    (answerLoad i slot access f m : Outcome (Mbox π) BusError (Instruction × LoadIssue)).Ends
      (fun a _ => a.1.fixed = i.fixed) (fun _ _ => True) True := by
  unfold answerLoad
  split
  · exact ends_bind (ends_any _) fun _ _ _ => rfl
  · refine ends_bind (ends_any _) fun _ _ _ => ?_
    refine ends_bind (ends_any _) fun readyAt m _ => ?_
    exact ends_bind (ends_any _) fun _ _ _ => rfl

theorem issueLoad_fixed [BlockDevice π] (i : Instruction) (va pa : Word) (width : Width)
    (m : Mbox π) :
    (issueLoad i va pa width m).Ends (fun a _ => a.1.fixed = i.fixed) (fun _ _ => True) True := by
  unfold issueLoad
  refine ends_bind (ends_any _) fun slot m _ => ?_
  refine ends_bind (ends_any _) fun answer m _ => ?_
  refine ends_bind (ends_any _) fun _ m _ => ?_
  exact ends_bind (ends_any _) fun f m _ => answerLoad_fixed i slot _ f m

theorem queueStore_fixed {ε : Type} (i : Instruction) (va pa : Word) (width : Width) (data : Word)
    (m : Mbox π) :
    (queueStore i va pa width data m : Outcome (Mbox π) ε Instruction).Ends
      (fun j _ => j.fixed = i.fixed) (fun _ _ => True) True := by
  unfold queueStore
  refine ends_bind (ends_any _) fun m _ _ => ?_
  refine ends_bind (ends_any _) fun slot m _ => ?_
  exact ends_bind (ends_any _) fun _ _ _ => rfl

end Mbox

namespace Core

variable {π : Type}

theorem issueLoad_fixed [BlockDevice π] (i : Instruction) (va pa : Word) (width : Width)
    (c : Core π) :
    (issueLoad i va pa width c).Ends (fun j t => t.lock = c.lock ∧ j.fixed = i.fixed)
      (fun _ t => t.lock = c.lock) True := by
  unfold issueLoad
  refine ends_bind (P := fun a t => t.lock = c.lock ∧ a.1.fixed = i.fixed) ?_ ?_
  · apply ends_mapError
    refine (ends_onPart (Mbox.issueLoad_fixed i va pa width c.mbox)).mono ?_ ?_ id
    · rintro a t ⟨mbox, ha, rfl⟩
      exact ⟨rfl, ha⟩
    · rintro e t ⟨mbox, -, rfl⟩
      rfl
  · rintro ⟨j, issue⟩ t ⟨ht, hj⟩
    exact ⟨(countAccess_same _ _).trans ((countWhen_same _ _ _).trans ht), hj⟩

theorem queueStore_fixed (i : Instruction) (va pa : Word) (width : Width) (data : Word)
    (c : Core π) :
    (onMbox (Mbox.queueStore i va pa width data) c : Outcome (Core π) Fault Instruction).Ends
      (fun j t => t.lock = c.lock ∧ j.fixed = i.fixed) (fun _ t => t.lock = c.lock) True := by
  refine (ends_onPart (Mbox.queueStore_fixed i va pa width data c.mbox)).mono ?_ ?_ id
  · rintro j t ⟨mbox, hj, rfl⟩
    exact ⟨rfl, hj⟩
  · rintro e t ⟨mbox, -, rfl⟩
    rfl

end Core

namespace Execution

variable {π : Type}

theorem keeps_issuing {x : Instruction → CoreStep π Instruction}
    (h : ∀ i c, (x i c).Ends (fun j t => t.lock = c.lock ∧ j.fixed = i.fixed)
      (fun _ t => t.lock = c.lock) True) :
    Keeps fixed (do let e ← get; let i ← onCore (x e.instruction); update fun _ => i) := by
  intro e
  rw [bind_done (get_apply e)]
  refine ends_bind (P := fun j t => t.core.lock = e.core.lock ∧ j.fixed = e.instruction.fixed) ?_ ?_
  · refine (ends_onPart (h e.instruction e.core)).mono ?_ ?_ id
    · rintro j t ⟨c, ⟨hc, hj⟩, rfl⟩
      exact ⟨hc, hj⟩
    · rintro f t ⟨c, hc, rfl⟩
      exact congrArg (Prod.mk · e.instruction.fixed) hc
  · rintro j t ⟨ht, hj⟩
    exact Prod.ext ht hj

theorem keeps_issue [BlockDevice π] (va pa : Word) (width : Width) :
    Keeps fixed (issue va pa width : ExecutionStep π Unit) :=
  keeps_issuing fun i => Core.issueLoad_fixed i va pa width

theorem keeps_queue (va pa : Word) (width : Width) (data : Word) :
    Keeps fixed (queue va pa width data : ExecutionStep π Unit) :=
  keeps_issuing fun i => Core.queueStore_fixed i va pa width data

theorem keeps_resolve (va : Word) (width : Width) (access : AccessKind) :
    Keeps fixed (resolve va width access : ExecutionStep π Word) := by
  unfold resolve
  refine keeps_get.bind fun e => ?_
  refine (keeps_onCore ((Core.keeps_checkAlignment _ _ _ _).map Prod.fst)).bind fun _ => ?_
  refine (keeps_onCore ((Core.keeps_translateData _ _ _).map Prod.fst)).bind fun pa => ?_
  exact (keeps_update).bind fun _ => keeps_pure _

theorem keeps_readVirtual [BlockDevice π] (va : Word) (width : Width) :
    Keeps fixed (readVirtual va width : ExecutionStep π Word) := by
  unfold readVirtual
  refine (keeps_resolve _ _ _).bind fun pa => ?_
  exact (keeps_issue _ _ _).bind fun _ => keeps_pure _

theorem keeps_writeVirtual (va : Word) (width : Width) (data : Word) :
    Keeps fixed (writeVirtual va width data : ExecutionStep π Unit) := by
  unfold writeVirtual
  exact (keeps_resolve _ _ _).bind fun pa => keeps_queue _ _ _ _

theorem keeps_readPhysical [BlockDevice π] (pa : Word) (width : Width) :
    Keeps fixed (readPhysical pa width : ExecutionStep π Unit) := by
  unfold readPhysical
  refine keeps_get.bind fun e => ?_
  exact (keeps_onCore ((Core.keeps_checkAlignment _ _ _ _).map Prod.fst)).bind fun _ => keeps_issue _ _ _

theorem keeps_writePhysical (pa : Word) (width : Width) (data : Word) :
    Keeps fixed (writePhysical pa width data : ExecutionStep π Unit) := by
  unfold writePhysical
  refine keeps_get.bind fun e => ?_
  exact (keeps_onCore ((Core.keeps_checkAlignment _ _ _ _).map Prod.fst)).bind fun _ => keeps_queue _ _ _ _

theorem keeps_writeInt (value : Word) : Keeps fixed (writeInt value : ExecutionStep π Unit) :=
  keeps_update

end Execution

open Execution

theorem MiscOp.keeps_execute {π : Type} [BlockDevice π] (op : MiscOp) :
    Keeps fixed (op.execute : ExecutionStep π Unit) := by
  cases op with
  | readCycleCounter => exact keeps_modify
  | readClearFlag => exact keeps_modify
  | readSetFlag => exact keeps_modify
  | evictBlock => exact keeps_get.bind fun _ => keeps_onCore (Core.keeps_evictBlock _)
  | trapBarrier | exceptionBarrier | memoryBarrier | writeBarrier | prefetch | prefetchModify
  | writeHint | writeHintEvict => exact keeps_pure _

theorem IntegerOp.execute_fixed {π : Type} {op : IntegerOp} {i j : Instruction} {c : Core π}
    (h : op.execute i c = .ok j) : j.fixed = i.fixed := by
  unfold IntegerOp.execute at h
  split at h
  · cases h
    rfl
  · cases h
    rfl
  · cases hr : Integer.execute (.integer op) i.a i.b c.bigEndian with
    | error fault => simp [hr, Except.map] at h
    | ok result =>
      simp only [hr, Except.map] at h
      cases result with
      | none =>
        cases h
        rfl
      | some value =>
        cases h
        rfl

namespace Execution

variable {π : Type}

theorem keeps_executeInteger (op : IntegerOp) :
    Keeps fixed (executeInteger op : ExecutionStep π Unit) := by
  intro e
  unfold executeInteger
  rw [bind_done (get_apply e)]
  cases h : op.execute e.instruction e.core with
  | ok i => exact congrArg (Prod.mk e.core.lock) (IntegerOp.execute_fixed h)
  | error fault => rfl

theorem keeps_executeFloat (op : FloatOp) :
    Keeps fixed (executeFloat op : ExecutionStep π Unit) := by
  unfold executeFloat
  refine keeps_get.bind fun e => (keeps_modify).bind fun _ => ?_
  exact (keeps_ofExcept _).bind fun value => keeps_update

theorem keeps_enterCall : Keeps fixed (PalOp.enterCall : ExecutionStep π Unit) := by
  unfold PalOp.enterCall
  refine keeps_get.bind fun e => ?_
  split
  · exact keeps_throw _
  · exact (keeps_check _).bind fun target => keeps_update

def withLock (e : Execution π) (lock : LockAction) : Execution π :=
  { e with instruction := { e.instruction with lock } }

theorem setLock_apply (lock : LockAction) (e : Execution π) :
    setLock lock e = .done () (e.withLock lock) := rfl

structure Executed (e t : Execution π) : Prop where
  lock : t.core.lock = e.core.lock
  mnemonic : t.instruction.mnemonic = e.instruction.mnemonic
  function : t.instruction.function = e.instruction.function
  loadLocked : ∀ va pa, t.instruction.lock = .acquire va pa → e.instruction.isLoadLocked = true

structure Decided (e t : Execution π) : Prop where
  gives_up : t.instruction.lock = .clear
  refuses : e.core.lock.held = false → t.instruction.dest = .int 0 ∧ t.instruction.slot = none

def ExecutesTo (e : Execution π) (o : Outcome (Execution π) Fault Unit) : Prop :=
  e.instruction.lock = .none → e.instruction.slot = none →
    o.Ends (fun _ t => Executed e t ∧ (e.instruction.isStoreConditional = true → Decided e t))
      (fun _ t => Executed e t) True

theorem Executed.of_fixed {e t : Execution π} (h : t.fixed = e.fixed)
    (he : e.instruction.lock = .none) : Executed e t := by
  simp only [fixed, Instruction.fixed, Prod.mk.injEq] at h
  obtain ⟨hlock, hmnemonic, hfunction, haction⟩ := h
  refine ⟨hlock, hmnemonic, hfunction, fun va pa hacquire => ?_⟩
  rw [haction, he] at hacquire
  cases hacquire

theorem executesTo_of_keeps {x : ExecutionStep π Unit} {e : Execution π} (hx : Keeps fixed x)
    (he : e.instruction.isStoreConditional = false) : ExecutesTo e (x e) := by
  intro hnone hslot
  refine (hx e).mono (fun _ t ht => ⟨.of_fixed ht hnone, fun hc => ?_⟩)
    (fun _ t ht => .of_fixed ht hnone) id
  rw [he] at hc
  cases hc

theorem ends_after {α β : Type} {x : ExecutionStep π α} {f : α → ExecutionStep π β}
    {e t : Execution π} {Q : β → Execution π → Prop} (hx : Keeps fixed x) (ht : t.fixed = e.fixed)
    (hnone : e.instruction.lock = .none)
    (hf : ∀ a u, u.fixed = e.fixed → (f a u).Ends Q (fun _ v => Executed e v) True) :
    ((x >>= f) t).Ends Q (fun _ v => Executed e v) True :=
  ends_bind
    ((hx t).mono (fun _ _ hu => hu.trans ht) (fun _ _ hu => .of_fixed (hu.trans ht) hnone) id) hf

theorem Executed.acquired {e t : Execution π} (h : t.fixed = e.fixed)
    (he : e.instruction.lock = .none) (hload : e.instruction.isLoadLocked = true)
    (lock : LockAction) : Executed e (t.withLock lock) := by
  have ht := Executed.of_fixed h he
  exact ⟨ht.lock, ht.mnemonic, ht.function, fun _ _ _ => hload⟩

theorem executesTo_storeConditional {store : ExecutionStep π Unit} {e : Execution π}
    (hstore : Keeps fixed store) : ExecutesTo e (storeConditional store e) := by
  intro hnone hslot
  unfold storeConditional
  rw [bind_done (setLock_apply .clear e), bind_done (get_apply _)]
  have cleared {t : Execution π} (ht : t.fixed = (e.withLock .clear).fixed) :
      Executed e t ∧ t.instruction.lock = .clear := by
    simp only [fixed, Instruction.fixed, withLock, Prod.mk.injEq] at ht
    obtain ⟨hlock, hmnemonic, hfunction, haction⟩ := ht
    refine ⟨⟨hlock, hmnemonic, hfunction, fun va pa h => ?_⟩, haction⟩
    rw [haction] at h
    cases h
  split
  · rename_i hheld
    have hkept : Keeps fixed (store >>= fun _ => writeInt 1) :=
      hstore.bind fun _ => keeps_writeInt 1
    refine (hkept _).mono (fun _ t ht => ⟨(cleared ht).1, fun _ => ⟨(cleared ht).2, fun h => ?_⟩⟩)
      (fun _ t ht => (cleared ht).1) id
    rw [show e.core.lock.held = true from hheld] at h
    cases h
  · have h := cleared (t := ⟨e.core, (e.withLock .clear).instruction.withInt 0⟩) rfl
    exact ⟨h.1, fun _ => ⟨h.2, fun _ => ⟨rfl, hslot⟩⟩⟩

theorem loadOp_executesTo [BlockDevice π] {op : LoadOp} {e : Execution π}
    (hm : e.instruction.mnemonic = .load op) : ExecutesTo e (op.execute e) := by
  intro hnone hslot
  have hconditional : ¬e.instruction.isStoreConditional = true := by
    simp [Instruction.isStoreConditional, hm]
  unfold LoadOp.execute
  refine ends_after keeps_update rfl hnone fun _ t ht => ?_
  refine ends_after keeps_get ht hnone fun _ t ht => ?_
  refine ends_after (keeps_readVirtual _ _) ht hnone fun pa t ht => ?_
  split
  · rename_i hlocks
    have hload : e.instruction.isLoadLocked = true := by
      simp [Instruction.isLoadLocked, hm, hlocks]
    exact ⟨.acquired ht hnone hload _, fun hc => absurd hc hconditional⟩
  · exact ⟨.of_fixed ht hnone, fun hc => absurd hc hconditional⟩

theorem storeOp_executesTo {op : StoreOp} {e : Execution π}
    (hm : e.instruction.mnemonic = .store op) : ExecutesTo e (op.execute e) := by
  unfold StoreOp.execute
  rw [bind_done (get_apply e)]
  split
  · exact executesTo_storeConditional (keeps_writeVirtual _ _ _)
  · rename_i hplain
    refine executesTo_of_keeps (keeps_writeVirtual _ _ _) ?_
    simp [Instruction.isStoreConditional, hm, hplain]

theorem loadMemory_executesTo [BlockDevice π] {e : Execution π}
    (hm : e.instruction.mnemonic = .pal .load) : ExecutesTo e (PalOp.loadMemory e) := by
  intro hnone hslot
  have hconditional : ¬e.instruction.isStoreConditional = true := by
    simp [Instruction.isStoreConditional, hm]
  unfold PalOp.loadMemory
  rw [bind_done (get_apply e)]
  refine ends_after keeps_update rfl hnone fun _ t ht => ?_
  cases haccess : PalAccess.ofFunction e.instruction.function with
  | physical =>
    refine (keeps_readPhysical _ _ t).mono (fun _ u hu => ?_) (fun _ u hu => ?_) id
    · exact ⟨.of_fixed (hu.trans ht) hnone, fun hc => absurd hc hconditional⟩
    · exact .of_fixed (hu.trans ht) hnone
  | physicalLocked =>
    refine ends_after (keeps_readPhysical _ _) ht hnone fun _ u hu => ?_
    have hload : e.instruction.isLoadLocked = true := by
      simp [Instruction.isLoadLocked, hm, haccess]
    exact ⟨.acquired hu hnone hload _, fun hc => absurd hc hconditional⟩
  | virtual =>
    refine ((keeps_readVirtual _ _).discard t).mono (fun _ u hu => ?_) (fun _ u hu => ?_) id
    · exact ⟨.of_fixed (hu.trans ht) hnone, fun hc => absurd hc hconditional⟩
    · exact .of_fixed (hu.trans ht) hnone

theorem storeMemory_executesTo {e : Execution π}
    (hm : e.instruction.mnemonic = .pal .store) : ExecutesTo e (PalOp.storeMemory e) := by
  unfold PalOp.storeMemory
  rw [bind_done (get_apply e)]
  cases haccess : PalAccess.ofFunction e.instruction.function with
  | physical =>
    refine executesTo_of_keeps (keeps_writePhysical _ _ _) ?_
    simp [Instruction.isStoreConditional, hm, haccess]
  | physicalLocked => exact executesTo_storeConditional (keeps_writePhysical _ _ _)
  | virtual =>
    refine executesTo_of_keeps (keeps_writeVirtual _ _ _) ?_
    simp [Instruction.isStoreConditional, hm, haccess]

theorem palOp_executesTo [BlockDevice π] {op : PalOp} {e : Execution π}
    (hm : e.instruction.mnemonic = .pal op) : ExecutesTo e (op.execute e) := by
  cases op with
  | load => exact loadMemory_executesTo hm
  | store => exact storeMemory_executesTo hm
  | call => exact executesTo_of_keeps keeps_enterCall (by simp [Instruction.isStoreConditional, hm])
  | readRegister =>
    refine executesTo_of_keeps ?_ (by simp [Instruction.isStoreConditional, hm])
    exact keeps_get.bind fun e => keeps_writeInt _
  | writeRegister =>
    refine executesTo_of_keeps ?_ (by simp [Instruction.isStoreConditional, hm])
    exact keeps_modify fun e =>
      congrArg (Prod.mk · e.instruction.fixed) (Core.lock_writeIndex _ _ _)
  | ret => exact executesTo_of_keeps keeps_update (by simp [Instruction.isStoreConditional, hm])

theorem dispatch_executesTo [BlockDevice π] (e : Execution π) :
    ExecutesTo e (dispatch e.instruction.mnemonic e) := by
  unfold dispatch
  rw [bind_done (get_apply e)]
  split
  · exact fun hnone _ => Executed.of_fixed rfl hnone
  · cases hm : e.instruction.mnemonic with
    | reserved => exact fun hnone _ => Executed.of_fixed rfl hnone
    | pal op => exact palOp_executesTo hm
    | address op =>
      refine executesTo_of_keeps (keeps_update ?_) (by simp [Instruction.isStoreConditional, hm])
      intro i
      cases op <;> rfl
    | load op => exact loadOp_executesTo hm
    | store op => exact storeOp_executesTo hm
    | control op =>
      refine executesTo_of_keeps (keeps_update ?_) (by simp [Instruction.isStoreConditional, hm])
      intro i
      cases op <;> rfl
    | misc op =>
      exact executesTo_of_keeps op.keeps_execute (by simp [Instruction.isStoreConditional, hm])
    | float op =>
      exact executesTo_of_keeps (keeps_executeFloat op)
        (by simp [Instruction.isStoreConditional, hm])
    | integer op =>
      exact executesTo_of_keeps (keeps_executeInteger op)
        (by simp [Instruction.isStoreConditional, hm])

end Execution

open Execution

theorem Core.execute_ends {π : Type} [BlockDevice π] (c : Core π) {i : Instruction}
    (hnone : i.lock = .none) (hslot : i.slot = none) :
    (c.execute i).Ends
      (fun _ t => Executed ⟨c, i⟩ t ∧ (i.isStoreConditional = true → Decided ⟨c, i⟩ t))
      (fun _ t => Executed ⟨c, i⟩ t) True := by
  unfold Core.execute Execution.execute
  have h := dispatch_executesTo ⟨c, { i with state := .waitingRetirement }⟩ hnone hslot
  refine h.mono ?_ ?_ id
  · rintro _ t ⟨ht, hdecided⟩
    exact ⟨⟨ht.lock, ht.mnemonic, ht.function, ht.loadLocked⟩,
      fun hc => ⟨(hdecided hc).gives_up, (hdecided hc).refuses⟩⟩
  · intro _ t ht
    exact ⟨ht.lock, ht.mnemonic, ht.function, ht.loadLocked⟩

end EV6
