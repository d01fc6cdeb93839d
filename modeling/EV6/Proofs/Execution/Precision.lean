import EV6.Execution.Dispatch
import EV6.Proofs.Fault.Keeps
import EV6.Proofs.Float.Status
import EV6.Proofs.Mbox.Access
/-!
Faults are precise: an instruction that faults leaves its result, the queues, the lock, the modes,
the predictor and the translations as they were, and only a machine check can have moved lines in the
caches.
-/

namespace EV6

open Step Outcome

namespace InternalRegisters

def masked (r : InternalRegisters) : InternalRegisters := { r with va := 0, mmStat := 0 }

theorem masked_latch (r : InternalRegisters) (fault : Fault) (opcode : Opcode) (write : Bool) :
    (r.latch fault opcode write).masked = r.masked := by
  unfold latch
  split <;> rfl

theorem eq_of_masked {r s : InternalRegisters} (h : s.masked = r.masked) :
    s = { r with va := s.va, mmStat := s.mmStat } :=
  congrArg (fun m : InternalRegisters => { m with va := s.va, mmStat := s.mmStat }) h

end InternalRegisters

namespace TranslationUnit

def masked (u : TranslationUnit) : TranslationUnit := ⟨u.itb.clearMiss, u.dtb.clearMiss⟩

theorem masked_translate (u : TranslationUnit) (va : Word) (access : AccessKind)
    (mode : ProcessorMode) (iprs : InternalRegisters) :
    (u.translate va access mode iprs).2.masked = u.masked := by
  unfold translate
  split
  · rfl
  · cases access <;> rfl

end TranslationUnit

namespace Core

variable {π : Type}

/-- The core without what any fault may leave in it: counts, latched registers, recorded misses. -/
def masked (c : Core π) : Core π :=
  { c with
    iprs := c.iprs.masked
    translation := c.translation.masked
    statistics := .zero }

def withMemory (c : Core π) (memory : MemoryHierarchy π) : Core π :=
  { c with mbox := { c.mbox with memory } }

theorem masked_countWhen (b : Bool) (f : Statistics → Statistics) (c : Core π) :
    (countWhen b f c).masked = c.masked := by
  unfold countWhen
  split <;> rfl

theorem masks_raiseData {α : Type} (fault : Fault) (opcode : Opcode) (write : Bool) :
    Keeps masked (raiseData fault opcode write : CoreStep π α) := by
  refine (keeps_modify fun c => ?_).bind fun _ => keeps_throw _
  exact congrArg (fun iprs => { c.masked with iprs }) (c.iprs.masked_latch fault opcode write)

theorem masks_checkAlignment (opcode : Opcode) (va : Word) (width : Width) (write : Bool) :
    Keeps masked (checkAlignment opcode va width write : CoreStep π Unit) := by
  unfold checkAlignment
  split
  · exact keeps_pure _
  · exact masks_raiseData _ _ _

theorem masks_translate {ε : Type} (va : Word) (access : AccessKind) :
    Keeps masked (translate va access : Step (Core π) ε _) := by
  refine keeps_modifyGet fun c => ?_
  exact congrArg (fun translation => { c.masked with translation })
    (c.translation.masked_translate va access c.mode c.iprs)

theorem masks_translateData (opcode : Opcode) (va : Word) (access : AccessKind) :
    Keeps masked (translateData opcode va access : CoreStep π Word) := by
  refine (masks_translate va access).bind fun answer => ?_
  cases answer with
  | ok pa => exact keeps_pure _
  | error fault =>
    exact (keeps_modify fun _ => masked_countWhen _ _ _).bind fun _ => masks_raiseData _ _ _

end Core

namespace Mbox

variable {π : Type}

theorem answerLoad_sure (i : Instruction) (slot : Nat) (access : Access)
    (f : StoreQueue.Forwarded) (m : Mbox π) :
    (answerLoad i slot access f m : Outcome (Mbox π) BusError (Instruction × LoadIssue)).Ends
      (fun _ _ => True) (fun _ _ => False) True := by
  have hrelease : (releaseLoad slot m : Outcome (Mbox π) BusError Unit).Ends (fun _ _ => True)
      (fun _ _ => False) True := by
    cases h : m.loads.release slot <;> simp [releaseLoad, bind_apply, h, Ends]
  unfold answerLoad
  split
  · exact ends_bind hrelease fun _ _ _ => trivial
  · cases h : Machine.add m.polls access.latency <;> simp [bind_apply, h, Ends]

theorem issueLoad_refused [BlockDevice π] (i : Instruction) (va pa : Word) (width : Width)
    (m : Mbox π) :
    (issueLoad i va pa width m).Ends (fun _ _ => True) (fun _ t => ∃ memory, t = { m with memory })
      True := by
  unfold issueLoad
  refine ends_bind ((allocateLoad_ends m _).mono (fun _ _ h => h) (fun _ _ h => h.elim)
    fun _ => trivial) ?_
  rintro slot _ ⟨hslot, hfree, rfl⟩
  generalize ({ seq := i.seq, va, pa, width, raw := 0, readyAt := 0 } : LoadEntry) = entry
  have hget : (m.loads.put slot entry).get slot = some entry := by
    rw [LoadQueue.get_put hslot, if_pos rfl]
  refine ends_bind (P := fun _ _ => True) ?_ ?_
  · refine ends_tryCatch (F := fun _ t => ∃ memory,
      t = { m with loads := m.loads.put slot entry, memory }) ?_ ?_
    · refine (onMemory_ends (ends_any _)).mono (fun _ _ _ => trivial) ?_ id
      rintro _ _ ⟨memory, rfl, -⟩
      exact ⟨memory, rfl⟩
    · rintro e _ ⟨memory, rfl⟩
      have hrelease := releaseLoad_done (ε := BusError)
        (m := { m with loads := m.loads.put slot entry, memory }) hget
      rw [LoadQueue.free_put hslot hfree] at hrelease
      refine ends_bind (P := fun _ t => t = { m with memory }) ?_ ?_
      · exact hrelease ▸ rfl
      · rintro _ _ rfl
        exact ⟨memory, rfl⟩
  · rintro answer t -
    refine ends_bind (P := fun _ _ => True) trivial fun t' _ _ => ?_
    refine ends_bind (P := fun _ _ => True) ?_ fun f u _ => ?_
    · cases StoreQueue.forward t'.stores pa i.seq answer.1 <;> trivial
    · exact (answerLoad_sure i slot answer.2 f u).of_sure

end Mbox

namespace Core

variable {π : Type} [BlockDevice π]

def Refused (c : Core π) (fault : Fault) (t : Core π) : Prop :=
  (∃ pa, fault = .machineCheck pa) ∧ ∃ memory, t = c.withMemory memory

theorem issueLoad_refused (i : Instruction) (va pa : Word) (width : Width) (c : Core π) :
    (issueLoad i va pa width c).Ends (fun _ _ => True) c.Refused True := by
  unfold issueLoad
  refine ends_bind (P := fun _ _ => True) ?_ fun _ _ _ => trivial
  apply ends_mapError
  refine (ends_onPart (Mbox.issueLoad_refused i va pa width c.mbox)).mono (fun _ _ _ => trivial) ?_ id
  rintro e t ⟨m, ⟨memory, rfl⟩, rfl⟩
  exact ⟨⟨e.addr, rfl⟩, memory, rfl⟩

theorem evictBlock_refused (va : Word) (c : Core π) :
    (evictBlock va c).Ends (fun _ _ => True) c.Refused True := by
  unfold evictBlock
  rw [bind_done (get_apply c)]
  cases c.translation.peek va .read c.mode c.iprs with
  | none => trivial
  | some pa =>
    refine ends_bind (P := fun _ _ => True) ?_ fun _ _ _ => trivial
    apply ends_mapError
    unfold onMemory onMbox Mbox.onMemory
    refine (ends_onPart (ends_onPart (ends_any _))).mono (fun _ _ _ => trivial) ?_ id
    rintro e t ⟨m, ⟨memory, -, rfl⟩, rfl⟩
    exact ⟨⟨e.addr, rfl⟩, memory, rfl⟩

end Core

theorem FloatOp.accumulates_narrow (function : Longword) (b : Word) (control : FloatControl) :
    control.Accumulates (narrow function b control).control := by
  unfold narrow
  split
  · exact .refl _
  · exact control.accumulates_record _

theorem FloatOp.accumulates_of_trap {op : FloatOp} {i : Instruction} {control : FloatControl}
    {fault : Fault} (h : (op.execute i control).result = .error fault) :
    control.Accumulates (op.execute i control).control := by
  cases op with
  | ieee op => exact control.accumulates_record _
  | quadToLong =>
    exact accumulates_narrow i.function i.b control
  | writeControl => cases h
  | vax op => exact .refl _
  | conditionalMove t =>
    simp only [execute] at h
    split at h <;> cases h
  | integerToF | integerToS | integerToT | floatToS | floatToT | copySign c | readControl
  | longToQuad => exact .refl _

structure Precise {π : Type} (e : Execution π) (fault : Fault) (t : Execution π) : Prop where
  dest : t.instruction.dest = e.instruction.dest
  slot : t.instruction.slot = e.instruction.slot
  branch : t.instruction.branch = e.instruction.branch
  loads : t.core.mbox.loads = e.core.mbox.loads
  stores : t.core.mbox.stores = e.core.mbox.stores
  lock : t.core.lock = e.core.lock
  interruptFlag : t.core.interruptFlag = e.core.interruptFlag
  mode : t.core.mode = e.core.mode
  palMode : t.core.palMode = e.core.palMode
  predictor : t.core.predictor = e.core.predictor
  itb : t.core.translation.itb.slots = e.core.translation.itb.slots
  dtb : t.core.translation.dtb.slots = e.core.translation.dtb.slots
  control : e.core.control.Accumulates t.core.control
  iprs : ∃ va mmStat, t.core.iprs = { e.core.iprs with va, mmStat }
  memory : (∀ pa, fault ≠ .machineCheck pa) → t.core.memory = e.core.memory

def Instruction.masked (i : Instruction) : Instruction :=
  { i with state := .executing, completion := .none, lock := .none, va := none }

namespace Execution

variable {π : Type} {α β : Type} {e t u : Execution π} {fault : Fault}

def masked (e : Execution π) : Execution π := ⟨e.core.masked, e.instruction.masked⟩

def withMemory (e : Execution π) (memory : MemoryHierarchy π) : Execution π :=
  { e with core := e.core.withMemory memory }

def withControl (e : Execution π) (control : FloatControl) : Execution π :=
  { e with core := { e.core with control } }

theorem precise_of_masked (h : t.masked = e.masked) (fault : Fault) : Precise e fault t where
  dest := congrArg (·.instruction.dest) h
  slot := congrArg (·.instruction.slot) h
  branch := congrArg (·.instruction.branch) h
  loads := congrArg (·.core.mbox.loads) h
  stores := congrArg (·.core.mbox.stores) h
  lock := congrArg (·.core.lock) h
  interruptFlag := congrArg (·.core.interruptFlag) h
  mode := congrArg (·.core.mode) h
  palMode := congrArg (·.core.palMode) h
  predictor := congrArg (·.core.predictor) h
  itb := congrArg (·.core.translation.itb.slots) h
  dtb := congrArg (·.core.translation.dtb.slots) h
  control := by
    have hcontrol : t.core.control = e.core.control := congrArg (·.core.control) h
    rw [hcontrol]
    exact .refl _
  iprs := ⟨_, _, InternalRegisters.eq_of_masked (congrArg (·.core.iprs) h)⟩
  memory _ := congrArg (·.core.memory) h

end Execution

namespace Precise

variable {π : Type} {e t u : Execution π} {fault : Fault}

theorem trans (h : Precise e fault u) (h' : Precise u fault t) : Precise e fault t where
  dest := h'.dest.trans h.dest
  slot := h'.slot.trans h.slot
  branch := h'.branch.trans h.branch
  loads := h'.loads.trans h.loads
  stores := h'.stores.trans h.stores
  lock := h'.lock.trans h.lock
  interruptFlag := h'.interruptFlag.trans h.interruptFlag
  mode := h'.mode.trans h.mode
  palMode := h'.palMode.trans h.palMode
  predictor := h'.predictor.trans h.predictor
  itb := h'.itb.trans h.itb
  dtb := h'.dtb.trans h.dtb
  control := h.control.trans h'.control
  iprs := by
    obtain ⟨_, _, hu⟩ := h.iprs
    obtain ⟨va, mmStat, ht⟩ := h'.iprs
    exact ⟨va, mmStat, by rw [ht, hu]⟩
  memory hne := (h'.memory hne).trans (h.memory hne)

theorem of_refused {c : Core π} (h : e.core.Refused fault c) : Precise e fault { e with core := c } := by
  obtain ⟨⟨pa, rfl⟩, memory, rfl⟩ := h
  have hsame := Execution.precise_of_masked (e := e.withMemory memory) rfl (.machineCheck pa)
  exact { hsame with memory := fun hne => absurd rfl (hne pa) }

theorem of_control {control : FloatControl} (hc : e.core.control.Accumulates control)
    (fault : Fault) : Precise e fault (e.withControl control) := by
  have hsame := Execution.precise_of_masked (e := e.withControl control) rfl fault
  exact { hsame with control := hc }

end Precise

namespace Execution

variable {π : Type} {α β : Type}

def FaultsPrecisely (x : ExecutionStep π α) : Prop :=
  ∀ e, (x e).Ends (fun _ _ => True) (Precise e) True

theorem precisely_of_masks {x : ExecutionStep π α} (h : Keeps masked x) : FaultsPrecisely x :=
  fun e => (h e).mono (fun _ _ _ => trivial) (fun fault _ ht => precise_of_masked ht fault) id

theorem precisely_after {x : ExecutionStep π α} {f : α → ExecutionStep π β} (hx : Keeps masked x)
    (hf : ∀ a, FaultsPrecisely (f a)) : FaultsPrecisely (x >>= f) := by
  intro e
  refine ends_bind ((hx e).mono (fun _ _ ht => ht) (fun fault _ ht => precise_of_masked ht fault) id)
    fun a t ht => ?_
  exact (hf a t).mono (fun _ _ h => h) (fun fault _ hu => (precise_of_masked ht fault).trans hu) id

theorem precisely_before {x : ExecutionStep π α} {f : α → ExecutionStep π β}
    (hx : FaultsPrecisely x) (hf : ∀ a e, (f a e).Ends (fun _ _ => True) (fun _ _ => False) True) :
    FaultsPrecisely (x >>= f) :=
  fun e => ends_bind (hx e) fun a t _ => (hf a t).of_sure

theorem masks_update {f : Instruction → Instruction}
    (h : ∀ i, (f i).masked = i.masked := by intro i; rfl) :
    Keeps masked (update f : ExecutionStep π Unit) :=
  keeps_modify fun e => congrArg (Execution.mk e.core.masked) (h e.instruction)

theorem masks_onCore {x : CoreStep π α} (h : Keeps Core.masked x) : Keeps masked (onCore x) := by
  intro e
  refine (ends_onPart (h e.core)).mono ?_ ?_ id
  · rintro _ _ ⟨c, hc, rfl⟩
    exact congrArg (Execution.mk · e.instruction.masked) hc
  · rintro _ _ ⟨c, hc, rfl⟩
    exact congrArg (Execution.mk · e.instruction.masked) hc

theorem precisely_onCore {x : CoreStep π α}
    (h : ∀ c, (x c).Ends (fun _ _ => True) c.Refused True) : FaultsPrecisely (onCore x) := by
  intro e
  refine (ends_onPart (h e.core)).mono (fun _ _ _ => trivial) ?_ id
  rintro fault _ ⟨c, hc, rfl⟩
  exact .of_refused hc

theorem masks_resolve (va : Word) (width : Width) (access : AccessKind) :
    Keeps masked (resolve va width access : ExecutionStep π Word) := by
  unfold resolve
  refine keeps_get.bind fun e => ?_
  refine (masks_onCore (Core.masks_checkAlignment _ _ _ _)).bind fun _ => ?_
  refine (masks_onCore (Core.masks_translateData _ _ _)).bind fun pa => ?_
  exact (masks_update).bind fun _ => keeps_pure _

theorem precisely_queue (va pa : Word) (width : Width) (data : Word) :
    FaultsPrecisely (queue va pa width data : ExecutionStep π Unit) := by
  unfold queue
  refine precisely_after keeps_get fun e => ?_
  refine precisely_before (precisely_onCore fun c => ?_) fun _ _ => trivial
  refine (ends_onPart (P := fun _ _ => True) (F := fun _ _ => False) ?_).mono
    (fun _ _ _ => trivial) ?_ id
  · unfold Mbox.queueStore
    rw [bind_done (get_apply _)]
    refine ends_bind (P := fun _ _ => True) ?_ fun _ _ _ => trivial
    exact (ends_check _).mono (fun _ _ _ => trivial) (fun _ _ h => h) id
  · rintro _ _ ⟨_, h, -⟩
    exact h.elim

theorem precisely_writeVirtual (va : Word) (width : Width) (data : Word) :
    FaultsPrecisely (writeVirtual va width data : ExecutionStep π Unit) :=
  precisely_after (masks_resolve _ _ _) fun _ => precisely_queue _ _ _ _

theorem precisely_writePhysical (pa : Word) (width : Width) (data : Word) :
    FaultsPrecisely (writePhysical pa width data : ExecutionStep π Unit) := by
  unfold writePhysical
  refine precisely_after keeps_get fun e => ?_
  exact precisely_after (masks_onCore (Core.masks_checkAlignment _ _ _ _)) fun _ =>
    precisely_queue _ _ _ _

theorem precisely_storeConditional {store : ExecutionStep π Unit} (hstore : FaultsPrecisely store) :
    FaultsPrecisely (storeConditional store) := by
  unfold storeConditional
  refine precisely_after masks_update fun _ => precisely_after keeps_get fun e => ?_
  split
  · exact precisely_before hstore fun _ _ => trivial
  · exact fun _ => trivial

theorem precisely_executeFloat (op : FloatOp) :
    FaultsPrecisely (executeFloat op : ExecutionStep π Unit) := by
  intro e
  unfold executeFloat
  rw [bind_done (get_apply e)]
  refine ends_bind (P := fun _ t => t = e.withControl (op.execute e.instruction e.core.control).control)
    rfl ?_
  rintro _ _ rfl
  refine ends_bind (P := fun _ _ => True) ?_ fun _ _ _ => trivial
  cases h : (op.execute e.instruction e.core.control).result with
  | ok value => trivial
  | error fault => exact .of_control (FloatOp.accumulates_of_trap h) fault

theorem precisely_executeInteger (op : IntegerOp) :
    FaultsPrecisely (executeInteger op : ExecutionStep π Unit) := by
  unfold executeInteger
  refine precisely_after keeps_get fun e => ?_
  exact precisely_before (precisely_of_masks (keeps_ofExcept _)) fun _ _ => trivial

theorem precisely_enterCall : FaultsPrecisely (PalOp.enterCall : ExecutionStep π Unit) := by
  unfold PalOp.enterCall
  refine precisely_after keeps_get fun e => ?_
  split
  · exact precisely_of_masks (keeps_throw _)
  · exact precisely_after (keeps_check _) fun target _ => trivial

theorem precisely_storeMemory : FaultsPrecisely (PalOp.storeMemory : ExecutionStep π Unit) := by
  unfold PalOp.storeMemory
  refine precisely_after keeps_get fun e => ?_
  dsimp only
  cases PalAccess.ofFunction e.instruction.function with
  | physical => exact precisely_writePhysical _ _ _
  | physicalLocked => exact precisely_storeConditional (precisely_writePhysical _ _ _)
  | virtual => exact precisely_writeVirtual _ _ _

theorem precisely_storeOp (op : StoreOp) : FaultsPrecisely (op.execute : ExecutionStep π Unit) := by
  unfold StoreOp.execute
  refine precisely_after keeps_get fun e => ?_
  split
  · exact precisely_storeConditional (precisely_writeVirtual _ _ _)
  · exact precisely_writeVirtual _ _ _

variable [BlockDevice π]

theorem precisely_issue (va pa : Word) (width : Width) :
    FaultsPrecisely (issue va pa width : ExecutionStep π Unit) := by
  unfold issue
  refine precisely_after keeps_get fun e => ?_
  exact precisely_before (precisely_onCore (Core.issueLoad_refused _ _ _ _)) fun _ _ => trivial

theorem precisely_readVirtual (va : Word) (width : Width) :
    FaultsPrecisely (readVirtual va width : ExecutionStep π Word) := by
  unfold readVirtual
  refine precisely_after (masks_resolve _ _ _) fun pa => ?_
  exact precisely_before (precisely_issue _ _ _) fun _ _ => trivial

theorem precisely_readPhysical (pa : Word) (width : Width) :
    FaultsPrecisely (readPhysical pa width : ExecutionStep π Unit) := by
  unfold readPhysical
  refine precisely_after keeps_get fun e => ?_
  exact precisely_after (masks_onCore (Core.masks_checkAlignment _ _ _ _)) fun _ =>
    precisely_issue _ _ _

theorem precisely_loadMemory : FaultsPrecisely (PalOp.loadMemory : ExecutionStep π Unit) := by
  unfold PalOp.loadMemory
  refine precisely_after keeps_get fun e => precisely_after masks_update fun _ => ?_
  cases PalAccess.ofFunction e.instruction.function with
  | physical => exact precisely_readPhysical _ _
  | physicalLocked => exact precisely_before (precisely_readPhysical _ _) fun _ _ => trivial
  | virtual => exact precisely_before (precisely_readVirtual _ _) fun _ _ => trivial

theorem precisely_loadOp (op : LoadOp) : FaultsPrecisely (op.execute : ExecutionStep π Unit) := by
  unfold LoadOp.execute
  refine precisely_after masks_update fun _ => precisely_after keeps_get fun e => ?_
  refine precisely_before (precisely_readVirtual _ _) fun pa t => ?_
  split <;> trivial

theorem precisely_palOp (op : PalOp) : FaultsPrecisely (op.execute : ExecutionStep π Unit) := by
  cases op with
  | load => exact precisely_loadMemory
  | store => exact precisely_storeMemory
  | call => exact precisely_enterCall
  | readRegister => exact fun _ => trivial
  | writeRegister => exact fun _ => trivial
  | ret => exact fun _ => trivial

theorem precisely_miscOp (op : MiscOp) : FaultsPrecisely (op.execute : ExecutionStep π Unit) := by
  cases op with
  | evictBlock =>
    exact precisely_after keeps_get fun e => precisely_onCore (Core.evictBlock_refused _)
  | readCycleCounter | readClearFlag | readSetFlag | trapBarrier | exceptionBarrier | memoryBarrier
  | writeBarrier | prefetch | prefetchModify | writeHint | writeHintEvict => exact fun _ => trivial

theorem precisely_dispatch (m : Mnemonic) :
    FaultsPrecisely (dispatch m : ExecutionStep π Unit) := by
  intro e
  unfold dispatch
  rw [bind_done (get_apply e)]
  split
  · exact precise_of_masked rfl _
  · cases m with
    | reserved => exact precise_of_masked rfl _
    | pal op => exact precisely_palOp op e
    | load op => exact precisely_loadOp op e
    | store op => exact precisely_storeOp op e
    | misc op => exact precisely_miscOp op e
    | float op => exact precisely_executeFloat op e
    | integer op => exact precisely_executeInteger op e
    | address op => trivial
    | control op => trivial

end Execution

theorem faults_are_precise {π : Type} [BlockDevice π] {c : Core π} {i : Instruction} {fault : Fault}
    {t : Execution π} (h : c.execute i = .failed fault t) : Precise ⟨c, i⟩ fault t := by
  have hends : (c.execute i).Ends (fun _ _ => True) (Precise ⟨c, i⟩) True :=
    Execution.precisely_after Execution.masks_update
      (fun _ => Execution.precisely_after keeps_get fun e => Execution.precisely_dispatch _) ⟨c, i⟩
  rw [h] at hends
  exact hends

def kernelConfig : Config :=
  { Config.stock with memory := { MemoryConfig.stock with superpageEnable := 7 } }

def absentLoad : Instruction :=
  { Instruction.ofMnemonic (.load .ldqLocked) 1 with first := .int 0xFFFF800000004008 }

theorem absentLoad_precise :
    ∃ core t, Core.ofConfig kernelConfig MemoryPort.sample = .ok core ∧
      core.execute absentLoad = .failed (.machineCheck 0x4000) t ∧
      Precise ⟨core, absentLoad⟩ (.machineCheck 0x4000) t := by
  have hcore : Core.ofConfig kernelConfig MemoryPort.sample = .ok _ := rfl
  refine ⟨_, _, hcore, rfl, ?_⟩
  exact faults_are_precise rfl

end EV6
