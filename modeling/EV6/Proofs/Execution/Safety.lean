import EV6.Execution.Session
import EV6.Proofs.Core.Intact
import EV6.Proofs.Execution.Operations

namespace EV6

open Step Outcome Address

namespace Execution

variable {π : Type} {ok : π → Prop} {config : Config} {room : Mbox π → Prop} {m : Mbox π} {B : Prop}

def Intact (ok : π → Prop) (config : Config) (e : Execution π) : Prop := e.core.Intact ok config

def WithBox (ok : π → Prop) (config : Config) (m : Mbox π) (e : Execution π) : Prop :=
  e.core.WithBox ok config m

def Attempts (ok : π → Prop) (config : Config) (room : Mbox π → Prop) {α : Type}
    (x : ExecutionStep π α) : Prop :=
  ∀ e : Execution π, e.Intact ok config →
    (x e).Ends (fun _ t => t.Intact ok config) (fun _ t => t.Intact ok config) (¬room e.core.mbox)

section Attempts

variable {α β : Type} {P : α → Prop} {x : ExecutionStep π α} {f : α → ExecutionStep π β}

theorem attempts_of_upholds (hx : Upholds (Intact ok config) False P x) :
    Attempts ok config room x := fun e he =>
  (hx e he).mono (fun _ _ h => h.1) (fun _ _ h => h) False.elim

theorem attempts_get {f : Execution π → ExecutionStep π β} (hf : ∀ e, Attempts ok config room (f e)) :
    Attempts ok config room (get >>= f) := fun e he => hf e e he

theorem attempts_after (hx : ∀ m, Upholds (WithBox ok config m) False P x)
    (hf : ∀ a, P a → Attempts ok config room (f a)) : Attempts ok config room (x >>= f) := by
  intro e he
  refine ends_bind ((hx e.core.mbox e ⟨he, rfl⟩).mono (fun _ _ h => h) (fun _ _ h => h.toIntact)
    False.elim) ?_
  rintro a t ⟨ht, ha⟩
  rw [← ht.box]
  exact hf a ha t ht.toIntact

theorem Attempts.before (hx : Attempts ok config room x)
    (hf : ∀ a, Upholds (Intact ok config) False (fun _ => True) (f a)) :
    Attempts ok config room (x >>= f) := fun e he =>
  ends_bind (hx e he) fun a t ht => (hf a t ht).mono (fun _ _ h => h.1) (fun _ _ h => h) False.elim

theorem Attempts.mono {room' : Mbox π → Prop} (hx : Attempts ok config room x)
    (hroom : ∀ m, room' m → room m) : Attempts ok config room' x := fun e he =>
  (hx e he).mono (fun _ _ h => h) (fun _ _ h => h) fun h h' => h (hroom _ h')

end Attempts

theorem upholds_onCore {α : Type} {P : α → Prop} {x : CoreStep π α}
    (hx : Upholds (Core.Intact ok config) B P x) : Upholds (Intact ok config) B P (onCore x) :=
  hx.onPart (fun _ he => he) fun _ _ _ hc => hc

theorem upholds_onCore_withBox {α : Type} {P : α → Prop} {x : CoreStep π α}
    (hx : Upholds (Core.WithBox ok config m) B P x) :
    Upholds (WithBox ok config m) B P (onCore x) :=
  hx.onPart (fun _ he => he) fun _ _ _ hc => hc

theorem upholds_update (f : Instruction → Instruction) :
    Upholds (Intact ok config) B (fun _ => True) (update f : ExecutionStep π Unit) :=
  upholds_modify fun _ he => he

theorem upholds_update_withBox (f : Instruction → Instruction) :
    Upholds (WithBox ok config m) B (fun _ => True) (update f : ExecutionStep π Unit) :=
  upholds_modify fun _ he => he

theorem upholds_resolve (va : Word) (width : Width) (access : AccessKind) :
    Upholds (WithBox ok config m) B (fun pa => isAligned va width = true ∧ Translates va pa)
      (resolve va width access : ExecutionStep π Word) := by
  refine upholds_get.bind fun e _ => ?_
  refine (upholds_onCore_withBox (Core.upholds_checkAlignment _ _ _ _)).bind fun _ ha => ?_
  refine (upholds_onCore_withBox (Core.upholds_translateData _ _ _)).bind fun pa hpa => ?_
  exact (upholds_update_withBox _).bind fun _ _ => upholds_pure (And.intro ha hpa)

def StoreRoom (m : Mbox π) : Prop := m.stores.isFull = false

theorem attempts_queue (va : Word) {pa : Word} {width : Width}
    (hend : pa.toNat + width.bytes < Machine.limit) (data : Word) :
    Attempts ok config StoreRoom (queue va pa width data) := by
  intro e he
  unfold queue
  rw [bind_done (get_apply e)]
  refine ends_bind (P := fun _ t => t.Intact ok config) ?_ fun i t ht => ht
  have hends := he.mbox.queueStore_ends (ε := Fault) e.instruction va hend data
  refine (ends_onPart (ends_onPart hends)).mono ?_ ?_ ?_
  · rintro _ _ ⟨_, ⟨m, hm, rfl⟩, rfl⟩
    exact he.withMbox hm
  · rintro _ _ ⟨_, ⟨m, hm, -⟩, -⟩
    exact hm.elim
  · intro hfull hroom
    rw [show e.core.mbox.stores.isFull = false from hroom] at hfull
    cases hfull

theorem attempts_writeVirtual (va : Word) (width : Width) (data : Word) :
    Attempts ok config StoreRoom (writeVirtual va width data : ExecutionStep π Unit) :=
  attempts_after (fun _ => upholds_resolve va width .write) fun _ hpa =>
    attempts_queue va (hpa.2.reach width) data

theorem attempts_writePhysical (pa : Word) (width : Width) (data : Word) :
    Attempts ok config StoreRoom (writePhysical pa width data : ExecutionStep π Unit) :=
  attempts_get fun _ =>
    attempts_after (fun _ => upholds_onCore_withBox (Core.upholds_checkAlignment _ _ _ _))
      fun _ _ => attempts_queue pa ((translates_physicalMask pa).reach width) data

theorem attempts_storeConditional {store : ExecutionStep π Unit}
    (hstore : Attempts ok config room store) : Attempts ok config room (storeConditional store) := by
  refine attempts_after (fun _ => upholds_update_withBox _) fun _ _ => attempts_get fun e => ?_
  split
  · exact hstore.before fun _ => upholds_update _
  · exact attempts_of_upholds (upholds_update _)

theorem attempts_storeOp (op : StoreOp) :
    Attempts ok config StoreRoom (op.execute : ExecutionStep π Unit) := by
  refine attempts_get fun e => ?_
  dsimp only
  split
  · exact attempts_storeConditional (attempts_writeVirtual _ _ _)
  · exact attempts_writeVirtual _ _ _

theorem attempts_storeMemory :
    Attempts ok config StoreRoom (PalOp.storeMemory : ExecutionStep π Unit) := by
  refine attempts_get fun e => ?_
  dsimp only
  cases PalAccess.ofFunction e.instruction.function with
  | physical => exact attempts_writePhysical _ _ _
  | physicalLocked => exact attempts_storeConditional (attempts_writePhysical _ _ _)
  | virtual => exact attempts_writeVirtual _ _ _

theorem callTarget_ok {base : Word} (hbase : base.toNat ≤ Core.palBaseMask.toNat) {offset : Nat}
    {function : Longword} {mode : ProcessorMode}
    (ho : PalOp.callOffset function mode = some offset) :
    ∃ target, PalOp.callTarget base offset function = .ok target := by
  have hoffset : offset ≤ 0x3000 := by
    unfold PalOp.callOffset at ho
    dsimp only at ho
    split at ho
    · cases ho
      decide
    · split at ho <;> cases ho
      decide
  have hmask : Core.palBaseMask.toNat < 2 ^ 44 := by decide
  have hfunction := Nat.mod_lt function.toNat (by decide : 0 < 0x40)
  have hfirst : base.toNat + offset < Machine.limit := by
    unfold Machine.limit
    omega
  have hsecond : base.toNat + offset + function.toNat % 0x40 * 0x40 < Machine.limit := by
    unfold Machine.limit
    omega
  unfold PalOp.callTarget
  rw [Machine.add_eq_ok_iff.mpr ⟨rfl, hfirst⟩]
  change ∃ target, (Machine.add _ _ >>= _) = _
  rw [Machine.add_eq_ok_iff.mpr ⟨rfl, hsecond⟩]
  exact ⟨_, rfl⟩

theorem upholds_enterCall :
    Upholds (Intact ok config) B (fun _ => True) (PalOp.enterCall : ExecutionStep π Unit) := by
  refine upholds_get.bind fun e he => ?_
  split
  · exact upholds_throw _
  · rename_i offset ho
    obtain ⟨target, htarget⟩ := callTarget_ok he.palBase ho
    rw [htarget]
    exact (upholds_check (P := fun _ => True) (fun _ _ => trivial) fun _ hb => by cases hb).bind
      fun _ _ => upholds_update _

variable [BlockDevice π] (hd : SizedDevice ok) (hv : config.Valid)

include hd hv

theorem attempts_issue (va : Word) {pa : Word} {width : Width} (ha : pa.toNat % width.bytes = 0)
    (hend : pa.toNat + width.bytes < Machine.limit) :
    Attempts ok config (Mbox.CanLoad config) (issue va pa width : ExecutionStep π Unit) := by
  intro e he
  unfold issue
  rw [bind_done (get_apply e)]
  refine ends_bind (P := fun _ t => t.Intact ok config) ?_ fun i t ht => ht
  refine (ends_onPart (Core.issueLoad_intact hd hv he e.instruction va ha hend)).mono ?_ ?_ id
  · rintro _ _ ⟨c, hc, rfl⟩
    exact hc
  · rintro _ _ ⟨c, hc, rfl⟩
    exact hc

theorem attempts_readVirtual (va : Word) (width : Width) :
    Attempts ok config (Mbox.CanLoad config) (readVirtual va width : ExecutionStep π Word) :=
  attempts_after (fun _ => upholds_resolve va width .read) fun _ hpa =>
    (attempts_issue hd hv va (hpa.2.aligned hpa.1) (hpa.2.reach width)).before fun _ =>
      upholds_pure trivial

theorem attempts_readPhysical (pa : Word) (width : Width) :
    Attempts ok config (Mbox.CanLoad config) (readPhysical pa width : ExecutionStep π Unit) :=
  attempts_get fun _ =>
    attempts_after (fun _ => upholds_onCore_withBox (Core.upholds_checkAlignment _ _ _ _))
      fun _ ha =>
        have htranslates := translates_physicalMask pa
        attempts_issue hd hv pa (htranslates.aligned ha) (htranslates.reach width)

theorem attempts_loadOp (op : LoadOp) :
    Attempts ok config (Mbox.CanLoad config) (op.execute : ExecutionStep π Unit) := by
  refine attempts_after (fun _ => upholds_update_withBox _) fun _ _ => attempts_get fun e => ?_
  refine (attempts_readVirtual hd hv _ _).before fun pa => ?_
  split
  · exact upholds_update _
  · exact upholds_pure trivial

theorem attempts_loadMemory :
    Attempts ok config (Mbox.CanLoad config) (PalOp.loadMemory : ExecutionStep π Unit) := by
  refine attempts_get fun e => attempts_after (fun _ => upholds_update_withBox _) fun _ _ => ?_
  cases PalAccess.ofFunction e.instruction.function with
  | physical => exact attempts_readPhysical hd hv _ _
  | physicalLocked => exact (attempts_readPhysical hd hv _ _).before fun _ => upholds_update _
  | virtual => exact (attempts_readVirtual hd hv _ _).before fun _ => upholds_pure trivial

omit hv

theorem upholds_miscOp (op : MiscOp) :
    Upholds (Intact ok config) B (fun _ => True) (op.execute : ExecutionStep π Unit) := by
  cases op with
  | evictBlock => exact upholds_get.bind fun _ _ => upholds_onCore (Core.upholds_evictBlock hd _)
  | readCycleCounter => exact upholds_modify fun _ he => he
  | readClearFlag | readSetFlag =>
    exact upholds_modify fun _ he => ⟨he.mbox, he.translation, he.palBase⟩
  | trapBarrier | exceptionBarrier | memoryBarrier | writeBarrier | prefetch | prefetchModify
  | writeHint | writeHintEvict => exact upholds_pure trivial

omit hd [BlockDevice π] in
theorem upholds_executeFloat (op : FloatOp) :
    Upholds (Intact ok config) B (fun _ => True) (executeFloat op : ExecutionStep π Unit) := by
  refine upholds_get.bind fun e _ => ?_
  refine (upholds_modify fun _ he => ⟨he.mbox, he.translation, he.palBase⟩).bind fun _ _ => ?_
  exact (upholds_ofExcept _).bind fun _ _ => upholds_update _

omit hd [BlockDevice π] in
theorem upholds_executeInteger (op : IntegerOp) :
    Upholds (Intact ok config) B (fun _ => True) (executeInteger op : ExecutionStep π Unit) :=
  upholds_get.bind fun _ _ => (upholds_ofExcept _).bind fun _ _ => upholds_update _

structure RoomFor (config : Config) (m : Mnemonic) (box : Mbox π) : Prop where
  load : m.loads = true → box.CanLoad config
  store : m.stores = true → StoreRoom box

include hv

theorem attempts_palOp (op : PalOp) :
    Attempts ok config (RoomFor config (.pal op)) (op.execute : ExecutionStep π Unit) := by
  cases op with
  | call => exact attempts_of_upholds upholds_enterCall
  | readRegister => exact attempts_get fun _ => attempts_of_upholds (upholds_update _)
  | writeRegister =>
    exact attempts_of_upholds (upholds_modify fun _ he => Core.Intact.writeIndex he _ _)
  | load => exact (attempts_loadMemory hd hv).mono fun _ hroom => hroom.load rfl
  | store => exact attempts_storeMemory.mono fun _ hroom => hroom.store rfl
  | ret => exact attempts_of_upholds (upholds_modify fun _ he => he)

theorem attempts_dispatch (m : Mnemonic) :
    Attempts ok config (RoomFor config m) (dispatch m : ExecutionStep π Unit) := by
  intro e he
  unfold dispatch
  rw [bind_done (get_apply e)]
  split
  · exact he
  · refine (?_ : Attempts ok config (RoomFor config m) _) e he
    cases m with
    | reserved => exact attempts_of_upholds (upholds_throw (P := fun _ => True) _)
    | pal op => exact attempts_palOp hd hv op
    | address op => exact attempts_of_upholds (upholds_update _)
    | load op => exact (attempts_loadOp hd hv op).mono fun _ hroom => hroom.load rfl
    | store op => exact (attempts_storeOp op).mono fun _ hroom => hroom.store rfl
    | control op => exact attempts_of_upholds (upholds_update _)
    | misc op => exact attempts_of_upholds (upholds_miscOp hd op)
    | float op => exact attempts_of_upholds (upholds_executeFloat op)
    | integer op => exact attempts_of_upholds (upholds_executeInteger op)

theorem attempts_execute (c : Core π) (hc : c.Intact ok config) (i : Instruction) :
    (c.execute i).Ends (fun _ t => t.Intact ok config) (fun _ t => t.Intact ok config)
      (¬RoomFor config i.mnemonic c.mbox) :=
  attempts_dispatch hd hv i.mnemonic ⟨c, { i with state := .waitingRetirement }⟩ hc

omit hd hv [BlockDevice π] in
theorem upholds_onCoreState {g : Core π → Core π}
    (h : ∀ c, c.Intact ok config → (g c).Intact ok config) :
    Upholds (Intact ok config) B (fun _ => True) (onCoreState g : ExecutionStep π Unit) :=
  upholds_modify fun e he => h e.core he

omit hd hv [BlockDevice π] in
theorem intact_commitLock (action : LockAction) (c : Core π) (hc : c.Intact ok config) :
    (c.commitLock action).Intact ok config := by
  cases action <;> exact ⟨hc.mbox, hc.translation, hc.palBase⟩

omit hd hv [BlockDevice π] in
theorem intact_palReturn (target : Word) (c : Core π) (hc : c.Intact ok config) :
    (c.palReturn target).Intact ok config := by
  unfold Core.palReturn
  split
  · exact ⟨hc.mbox, hc.translation, hc.palBase⟩
  · exact ⟨hc.mbox, ⟨hc.translation.itb.clearMiss, hc.translation.dtb.clearMiss⟩, hc.palBase⟩

omit hd hv [BlockDevice π] in
theorem intact_commitBranch (i : Instruction) (outcome : BranchOutcome) (c : Core π)
    (hc : c.Intact ok config) : (c.commitBranch i outcome).Intact ok config := by
  unfold Core.commitBranch
  split
  · exact ⟨hc.mbox, hc.translation, hc.palBase⟩
  · exact intact_palReturn _ c hc
  · split
    · exact ⟨hc.mbox, hc.translation, hc.palBase⟩
    · exact hc

theorem upholds_commitStore :
    Upholds (Intact ok config) True (fun _ => True) (commitStore : ExecutionStep π Unit) := by
  refine upholds_get.bind fun e _ => ?_
  dsimp only
  split
  · split
    · exact upholds_pure trivial
    · exact (upholds_update _).bind fun _ _ => upholds_onCore (Core.upholds_retireStore hd hv _)
  · exact upholds_pure trivial

theorem upholds_retire :
    Upholds (Intact ok config) True (fun _ => True) (retire : ExecutionStep π Unit) := by
  refine upholds_get.bind fun e _ => ?_
  have hfinish : Upholds (Intact ok config) True (fun _ => True) (do
      onCoreState (·.count (.countRetired e.instruction.mnemonic))
      update fun i => { i with state := .retired } : ExecutionStep π Unit) :=
    (upholds_onCoreState fun _ hc => hc.count _).bind fun _ _ => upholds_update _
  dsimp only
  split
  · exact fun _ _ => trivial
  · refine (upholds_onCoreState (intact_commitLock _)).bind fun _ _ =>
      (upholds_commitStore hd hv).bind fun _ _ => ?_
    split
    · exact hfinish
    · exact (upholds_onCoreState (intact_commitBranch _ _)).bind fun _ _ => hfinish

end Execution

namespace Core

open Execution

variable {π : Type} [BlockDevice π] {ok : π → Prop} {config : Config} {port : π} {c t : Core π}

omit [BlockDevice π] in
theorem intact_left {α : Type} {o : Outcome (Execution π) Fault α} {B : Prop}
    (h : o.Ends (fun _ t => t.Intact ok config) (fun _ t => t.Intact ok config) B)
    (ht : leftBy o = some t) : t.Intact ok config := by
  obtain ⟨e, he, rfl⟩ := leftBy_eq_some ht
  rcases h.of_state he with ⟨_, h⟩ | ⟨_, h⟩ <;> exact h

theorem Intact.operate (hd : SizedDevice ok) (hv : config.Valid) (h : c.Intact ok config)
    {op : Operation} (ht : c.operate op = some t) : t.Intact ok config := by
  cases op with
  | execute i => exact intact_left (attempts_execute hd hv c h i) ht
  | retire i =>
    exact intact_left ((upholds_retire hd hv ⟨c, i⟩ h).mono (fun _ _ h => h.1) (fun _ _ h => h) id) ht
  | poll pending =>
    cases ht
    exact h.poll pending
  | fetch pc => exact (upholds_fetch (B := False) hd hv pc).of_state h ht
  | readVirtual i va width => exact intact_left (attempts_readVirtual hd hv va width ⟨c, i⟩ h) ht
  | readPhysical i pa width => exact intact_left (attempts_readPhysical hd hv pa width ⟨c, i⟩ h) ht
  | writeVirtual i va width data => exact intact_left (attempts_writeVirtual va width data ⟨c, i⟩ h) ht
  | writePhysical i pa width data =>
    exact intact_left (attempts_writePhysical pa width data ⟨c, i⟩ h) ht
  | retireStore slot => exact (upholds_retireStore hd hv slot).of_state h ht
  | translate opcode va access =>
    have hbox : c.WithBox ok config c.mbox := ⟨h, rfl⟩
    exact ((upholds_translateData (B := False) opcode va access).of_state hbox ht).toIntact
  | probeInvalidate pa => exact (upholds_probeInvalidate (B := False) hd pa).of_state h ht
  | probeShare pa => exact (upholds_probeShare (B := False) hd pa).of_state h ht
  | memory call => exact (upholds_onMemory (MemoryHierarchy.upholds_call hd hv call)).of_state h ht
  | writeIndex index value =>
    cases ht
    exact h.writeIndex index value
  | palReturn target =>
    cases ht
    exact intact_palReturn target c h
  | squash seq =>
    cases ht
    exact h.withMbox (h.mbox.squash seq)
  | clearQueues =>
    cases ht
    exact h.withMbox h.mbox.clear
  | enterPal fault seq pc =>
    cases ht
    exact ⟨h.mbox.squash seq, h.translation, h.palBase⟩
  | callPal | acquireLock | clearLock | setModes =>
    cases ht
    exact ⟨h.mbox, h.translation, h.palBase⟩

theorem Reachable.intact (hd : SizedDevice ok) (hport : ok port) (h : Reachable config port c) :
    config.Valid ∧ c.Intact ok config :=
  h.invariant (Intact.ofConfig hport) fun hc ht => ⟨hc.1, hc.2.operate hd hc.1 ht⟩

theorem memory_path_safe (hd : SizedDevice ok) (hport : ok port) (h : Reachable config port c) :
    c.Intact ok config ∧
      (∀ i, RoomFor config i.mnemonic c.mbox → ∀ b, c.execute i ≠ .broken b) ∧
      (∀ pending, c.mbox.polls + 1 < Machine.limit →
        c.pollChecked pending = .ok (c.poll pending)) ∧
      (∀ pc b, fetch pc c ≠ .broken b) ∧
      (∀ pa b, probeInvalidate pa c ≠ .broken b) ∧
      ∀ pa b, probeShare pa c ≠ .broken b := by
  obtain ⟨hv, hc⟩ := h.intact hd hport
  refine ⟨hc, fun i hroom => ?_, fun pending hclock => hc.pollChecked_eq hclock pending, ?_, ?_, ?_⟩
  · exact (attempts_execute hd hv c hc i).not_broken fun hno => hno hroom
  · exact fun pc => (upholds_fetch hd hv pc).not_broken hc
  · exact fun pa => (upholds_probeInvalidate hd pa).not_broken hc
  · exact fun pa => (upholds_probeShare hd pa).not_broken hc

def windowConfig : Config :=
  { Config.stock with memory := { MemoryConfig.stock with superpageEnable := 7 } }

def windowLoad : Instruction :=
  { Instruction.ofMnemonic (.load .ldq) 1 with first := .int 0xFFFF800000000100 }

theorem windowLoad_safe :
    ∃ core : Core MemoryPort, ofConfig windowConfig MemoryPort.sample = .ok core ∧
      RoomFor windowConfig windowLoad.mnemonic core.mbox ∧
      (∀ b, core.execute windowLoad ≠ .broken b) ∧
      core.pollChecked [windowLoad] = .ok (core.poll [windowLoad]) := by
  obtain ⟨core, hcore⟩ : ∃ core, ofConfig windowConfig MemoryPort.sample = .ok core := ⟨_, rfl⟩
  obtain ⟨-, hexecute, hpoll, -⟩ :=
    memory_path_safe MemoryPort.flat.sized trivial (Reachable.start hcore)
  have hroom : RoomFor windowConfig windowLoad.mnemonic core.mbox := by
    cases hcore
    exact ⟨fun _ => ⟨⟨0, rfl⟩, by decide⟩, fun h => by cases h⟩
  have hclock : core.mbox.polls + 1 < Machine.limit := by
    cases hcore
    decide
  exact ⟨core, hcore, hroom, hexecute windowLoad hroom, hpoll _ hclock⟩

end Core

end EV6
