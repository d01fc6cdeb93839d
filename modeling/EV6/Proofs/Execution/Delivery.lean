import EV6.Execution.Session
import EV6.Proofs.Execution.Safety
import EV6.Proofs.Mbox.Delivery
import EV6.Proofs.Translation.Quadword

namespace EV6

open Step Outcome Address

variable {π : Type} {content : π → Memory} {ok : π → Prop} {answers : Word → Nat → Prop}
  {mem : Memory} {es : List StoreEntry}

namespace Core

variable {c : Core π} {i : Instruction} {raw : Word} {n due : Nat}

def pollFor : Nat → Core π → Instruction → Instruction
  | 0, _, i => i
  | n + 1, c, i => pollFor n (c.poll [i]).2 ((c.poll [i]).1.instructions.headD i)

theorem poll_none (h : Mbox.deliver (c.mbox.polls + 1) c.mbox.loads i = none) :
    (c.poll [i]).1.instructions = [i] ∧
      (c.poll [i]).2.mbox = { c.mbox with polls := c.mbox.polls + 1 } := by
  have hall : Mbox.deliverAll (c.mbox.polls + 1) c.mbox.loads [i] = ⟨0, [i], c.mbox.loads⟩ := by
    rw [Mbox.deliverAll, h]
    rfl
  simp only [poll, Mbox.poll, hall, and_self]

theorem pollFor_of_slot (h : i.slot = none) (n : Nat) (c : Core π) : pollFor n c i = i := by
  induction n generalizing c with
  | zero => rfl
  | succ n ih =>
    have hnone : Mbox.deliver (c.mbox.polls + 1) c.mbox.loads i = none := by
      rw [Mbox.deliver, h]
      rfl
    rw [pollFor, (poll_none hnone).1]
    exact ih _

theorem pollFor_of_awaits (h : c.mbox.Awaits i raw due) (hpos : 0 < n)
    (hdue : due ≤ c.mbox.polls + n) : pollFor n c i = i.delivered raw := by
  induction n generalizing c with
  | zero => cases hpos
  | succ n ih =>
    rw [pollFor]
    by_cases hready : due ≤ c.mbox.polls + 1
    · have hfirst : ∀ k ∈ ([] : List Instruction), k.slot ≠ i.slot := fun _ hk => by cases hk
      have hback : (c.poll [i]).1.instructions[0]? = some (i.delivered raw) :=
        Mbox.deliverAll_delivers hfirst (h.delivers hready)
      rw [List.headD_eq_head?_getD, List.head?_eq_getElem?, hback]
      exact pollFor_of_slot rfl n _
    · have hnone : Mbox.deliver (c.mbox.polls + 1) c.mbox.loads i = none := by
        refine Option.eq_none_iff_forall_ne_some.mpr ?_
        rintro ⟨j, q⟩ hdeliver
        obtain ⟨⟨slot, e, hslot, hget, -, hreadyAt, -⟩, -⟩ := Mbox.deliver_eq_some hdeliver
        obtain ⟨slot', e', hslot', hget', -, -, rfl⟩ := h
        cases hslot.symm.trans hslot'
        cases hget.symm.trans hget'
        exact hready hreadyAt
      obtain ⟨hback, hbox⟩ := poll_none hnone
      rw [hback]
      refine ih ?_ (by omega) ?_
      · rw [hbox]
        exact h
      · rw [hbox]
        change due ≤ c.mbox.polls + 1 + n
        omega

theorem mbox_countWhen (b : Bool) (f : Statistics → Statistics) (c : Core π) :
    (countWhen b f c).mbox = c.mbox := countWhen_same b f c

theorem mbox_countAccess (access : Access) (c : Core π) : (countAccess access c).mbox = c.mbox :=
  countAccess_same access c

variable [BlockDevice π]

theorem issueLoad_ends (hd : FlatDevice content ok answers) (hm : c.memory.Shows content ok mem)
    (hq : c.mbox.stores.Holds es) (i : Instruction) (va : Word) {pa : Word} {width : Width}
    (ha : pa.toNat % width.bytes = 0) :
    (issueLoad i va pa width c).Ends
      (fun j t =>
        Mbox.Loaded content ok mem (Mbox.olderValue mem es i.seq pa width) i c.mbox j t.mbox)
      (fun _ _ => ¬c.memory.Served answers pa width.bytes) (¬c.mbox.LoadFits pa width) := by
  have hissue := Mbox.issueLoad_older_ends hd hm hq i va ha
  unfold issueLoad
  refine ends_bind (ends_mapError ((ends_onPart hissue).mono (fun _ _ h => h) ?_ id)) ?_
  · rintro _ _ ⟨_, h, -⟩
    exact h
  · rintro ⟨j, issue⟩ _ ⟨m, hloaded, rfl⟩
    dsimp only
    rw [bind_done (modify_apply _ _), bind_done (modify_apply _ _), bind_done (modify_apply _ _),
      pure_apply]
    rw [Ends, mbox_countAccess, mbox_countWhen]
    exact hloaded

theorem retireStore_ends (hd : FlatDevice content ok answers) (hm : c.memory.Shows content ok mem)
    {e : StoreEntry} (hq : c.mbox.stores.Holds (e :: es)) (ha : e.pa.toNat % e.width.bytes = 0) :
    (retireStore c.mbox.stores.head c).Ends
      (fun _ t => t.memory.Shows content ok (mem.write e.pa.toNat e.bytes) ∧ t.mbox.stores.Holds es)
      (fun _ _ => ¬c.memory.Served answers e.pa e.width.bytes) False := by
  have hretire := Mbox.retireStore_ends hd hm hq ha
  unfold retireStore
  refine ends_bind (ends_mapError ((ends_onPart hretire).mono (fun _ _ h => h) ?_ id)) ?_
  · rintro _ _ ⟨_, h, -⟩
    exact h
  · rintro ⟨_, access⟩ _ ⟨m, ⟨stores, h, rfl, hholds, hshows⟩, rfl⟩
    dsimp only
    rw [bind_done (modify_apply _ _), modify_apply, Ends, memory, mbox_countAccess]
    exact ⟨hshows, hholds⟩

end Core

theorem Mbox.Intact.loadFits [BlockDevice π] {config : Config} {m : Mbox π}
    (hm : m.Intact ok config) (hd : SizedDevice ok) (hv : config.Valid)
    (hcan : m.CanLoad config) {pa : Word} {width : Width} (ha : pa.toNat % width.bytes = 0)
    (hend : pa.toNat + width.bytes < Machine.limit) : m.LoadFits pa width where
  room := hcan.room
  reach := hend
  stores := by
    obtain ⟨es, hholds, hes⟩ := hm.stores
    rwa [hholds.entries]
  clock data access h hread := by
    have hline := hv.dcache.lineSize
    have hwithin := hline.within (Nat.dvd_trans width.bytes_dvd_eight hline.eight_dvd) ha
    have hends := MemoryHierarchy.upholds_read (B := False) hd hv pa width.bytes
      (Nat.not_lt.mpr hwithin) m.memory hm.memory
    rw [hread] at hends
    exact hcan.clock _ hends.2.2

namespace Execution

variable {e : Execution π} {va pa : Word} {width : Width}

def Gets (o : Outcome (Execution π) Fault Unit) (value : RegisterValue) : Prop :=
  ∃ e n, o = .done () e ∧ ∀ k, n ≤ k →
    (e.core.pollFor k e.instruction).slot = none ∧ (e.core.pollFor k e.instruction).dest = value

theorem resolve_done {access : AccessKind} (ha : isAligned va width = true)
    (hp : e.core.translation.peek va access e.core.mode e.core.iprs = some pa) :
    resolve va width access e =
      .done pa { e with instruction := { e.instruction with va := some va } } := by
  unfold resolve
  rw [bind_done (get_apply e)]
  have halign : onCore (Core.checkAlignment e.instruction.opcode va width (access == .write)) e =
      .done () e := by
    refine onPart_done (s := e) (t := e.core) ?_
    rw [Core.checkAlignment, if_pos ha]
    rfl
  have htranslate : onCore (Core.translateData e.instruction.opcode va access) e = .done pa e := by
    refine onPart_done (s := e) (t := e.core) ?_
    have hanswer : (Core.translate va access e.core : Outcome (Core π) Fault _) =
        .done (.ok pa) e.core := by
      rw [Core.translate, modifyGet_apply, TranslationUnit.translate,
        TranslationUnit.peek_eq_some_iff.mp hp]
    rw [Core.translateData, bind_done hanswer]
    rfl
  rw [bind_done halign, bind_done htranslate]
  rfl

theorem Gets.of_loaded {o : Outcome (Execution π) Fault Unit} {t : Execution π} {i : Instruction}
    {m : Mbox π} {raw : Word} (ho : o = .done () t)
    (h : Mbox.Loaded content ok mem raw i m t.instruction t.core.mbox) :
    Gets o (i.completion.apply raw) := by
  rcases h.answer with hi | ⟨slot, entry, hi, hget, hseq, hraw⟩
  · refine ⟨t, 0, ho, fun k _ => ?_⟩
    rw [Core.pollFor_of_slot (by rw [hi]; rfl), hi]
    exact ⟨rfl, rfl⟩
  · have hawaits : t.core.mbox.Awaits t.instruction raw entry.readyAt := by
      rw [hi]
      exact ⟨slot, entry, rfl, hget, hseq, hraw, rfl⟩
    refine ⟨t, entry.readyAt + 1, ho, fun k hk => ?_⟩
    rw [Core.pollFor_of_awaits hawaits (by omega) (by omega), hi]
    exact ⟨rfl, rfl⟩

variable [BlockDevice π]

theorem issue_ends (hd : FlatDevice content ok answers) (hm : e.core.memory.Shows content ok mem)
    (hq : e.core.mbox.stores.Holds es) (va : Word) (ha : pa.toNat % width.bytes = 0) :
    (issue va pa width e).Ends
      (fun _ t => Mbox.Loaded content ok mem (Mbox.olderValue mem es e.instruction.seq pa width)
        e.instruction e.core.mbox t.instruction t.core.mbox)
      (fun _ _ => ¬e.core.memory.Served answers pa width.bytes)
      (¬e.core.mbox.LoadFits pa width) := by
  unfold issue
  rw [bind_done (get_apply e)]
  have hissue := Core.issueLoad_ends hd hm hq e.instruction va ha
  refine ends_bind ((ends_onPart hissue).mono (fun _ _ h => h) ?_ id) ?_
  · rintro _ _ ⟨_, h, -⟩
    exact h
  · rintro j _ ⟨c, hloaded, rfl⟩
    exact hloaded

structure CanRead (answers : Word → Nat → Prop) (c : Core π) (va pa : Word) (width : Width) :
    Prop where
  aligned : isAligned va width = true
  mapped : c.translation.peek va .read c.mode c.iprs = some pa
  translates : Translates va pa
  fits : c.mbox.LoadFits pa width
  served : c.memory.Served answers pa width.bytes

def begun (c : Core π) (i : Instruction) : Execution π :=
  ⟨c, { i with state := .waitingRetirement }⟩

theorem execute_eq (c : Core π) (i : Instruction) :
    c.execute i = dispatch i.mnemonic (begun c i) := rfl

theorem dispatch_load (op : LoadOp) (e : Execution π) : dispatch (.load op) e = op.execute e := by
  unfold dispatch
  rw [bind_done (get_apply e), if_neg (by simp [Mnemonic.isPalOnly])]

theorem dispatch_store (op : StoreOp) (e : Execution π) :
    dispatch (.store op) e = op.execute e := by
  unfold dispatch
  rw [bind_done (get_apply e), if_neg (by simp [Mnemonic.isPalOnly])]

theorem readVirtual_done (hd : FlatDevice content ok answers)
    (hm : e.core.memory.Shows content ok mem) (hq : e.core.mbox.stores.Holds es)
    (hread : CanRead answers e.core va pa width) :
    ∃ t, readVirtual va width e = .done pa t ∧
      Mbox.Loaded content ok mem (Mbox.olderValue mem es e.instruction.seq pa width)
        { e.instruction with va := some va } e.core.mbox t.instruction t.core.mbox := by
  have hissue := issue_ends hd (e := { e with instruction := { e.instruction with va := some va } })
    hm hq va (hread.translates.aligned hread.aligned)
  obtain ⟨_, t, hdone, hloaded⟩ :=
    (hissue.sure (fun _ _ h => h hread.served) fun h => h hread.fits).exists_done
  refine ⟨t, ?_, hloaded⟩
  rw [readVirtual, bind_done (resolve_done hread.aligned hread.mapped), bind_done hdone]
  rfl

theorem load_gets (hd : FlatDevice content ok answers) {c : Core π}
    (hm : c.memory.Shows content ok mem) (hq : c.mbox.stores.Holds es) {op : LoadOp}
    (hop : op.locks = false) {i : Instruction} (hi : i.mnemonic = .load op)
    (hread : CanRead answers c ((begun c i).effectiveAddress op.width op.aligns) pa op.width) :
    Gets (c.execute i) (op.completion.apply (Mbox.olderValue mem es i.seq pa op.width)) := by
  obtain ⟨t, hdone, hloaded⟩ := readVirtual_done hd
    (e := ⟨c, { (begun c i).instruction with completion := op.completion }⟩) hm hq hread
  have hplain (lock : LockAction) :
      (if op.locks then setLock lock else pure () : ExecutionStep π Unit) = pure () := by
    rw [hop]
    rfl
  refine Gets.of_loaded ?_ hloaded
  rw [execute_eq, hi, dispatch_load]
  refine (bind_done hdone).trans ?_
  rw [hplain]
  rfl

structure CanWrite (c : Core π) (va pa : Word) (width : Width) : Prop where
  aligned : isAligned va width = true
  mapped : c.translation.peek va .write c.mode c.iprs = some pa
  room : StoreRoom c.mbox

omit [BlockDevice π] in
theorem queue_done {data : Word} {j : Instruction} {m : Mbox π}
    (h : (Mbox.queueStore e.instruction va pa width data e.core.mbox : Outcome _ Fault _) =
      .done j m) :
    queue va pa width data e = .done () ⟨{ e.core with mbox := m }, j⟩ := by
  rw [queue, bind_done (get_apply e)]
  exact bind_done (onPart_done (onPart_done h))

omit [BlockDevice π] in
theorem writeVirtual_done (hq : e.core.mbox.stores.Holds es) (hwrite : CanWrite e.core va pa width)
    (data : Word) :
    ∃ stores, writeVirtual va width data e = .done ()
        ⟨{ e.core with mbox := { e.core.mbox with stores } },
          { e.instruction with va := some va, slot := some e.core.mbox.stores.tail }⟩ ∧
      stores.head = e.core.mbox.stores.head ∧
      stores.Holds (es ++ [⟨e.instruction.seq, va, pa, data.zeroExtend width, width⟩]) := by
  obtain ⟨stores, hqueue, hqueued⟩ := Mbox.queueStore_done hq hwrite.room
    { e.instruction with va := some va } va pa width data
  refine ⟨stores, ?_, hqueued⟩
  rw [writeVirtual, bind_done (resolve_done hwrite.aligned hwrite.mapped)]
  exact queue_done hqueue

theorem store_queues {c : Core π} (hq : c.mbox.stores.Holds es) {op : StoreOp}
    (hop : op.conditional = false) {i : Instruction} (hi : i.mnemonic = .store op)
    (hwrite : CanWrite c ((begun c i).effectiveAddress op.width op.aligns) pa op.width) :
    ∃ e stores, c.execute i = .done () e ∧ e.core = { c with mbox := { c.mbox with stores } } ∧
      e.instruction.mnemonic = i.mnemonic ∧ e.instruction.state = .waitingRetirement ∧
      e.instruction.slot = some c.mbox.stores.tail ∧ stores.head = c.mbox.stores.head ∧
      stores.Holds (es ++
        [⟨i.seq, (begun c i).effectiveAddress op.width op.aligns, pa,
          (op.image i.b).zeroExtend op.width, op.width⟩]) := by
  obtain ⟨stores, hdone, hqueued⟩ := writeVirtual_done (e := begun c i) hq hwrite (op.image i.b)
  have hplain : c.execute i = writeVirtual ((begun c i).effectiveAddress op.width op.aligns)
      op.width (op.image i.b) (begun c i) := by
    rw [execute_eq, hi, dispatch_store, StoreOp.execute, bind_done (get_apply _), hop]
    rfl
  exact ⟨_, stores, hplain.trans hdone, rfl, rfl, rfl, rfl, hqueued⟩

structure CanRetire (content : π → Memory) (ok : π → Prop) (answers : Word → Nat → Prop)
    (mem : Memory) (m : Mbox π) (i : Instruction) (e : StoreEntry) (rest : List StoreEntry) :
    Prop where
  memory : m.memory.Shows content ok mem
  holds : m.stores.Holds (e :: rest)
  slot : i.slot = some m.stores.head
  served : m.memory.Served answers e.pa e.width.bytes

omit [BlockDevice π] in
theorem mbox_commitLock (action : LockAction) (c : Core π) :
    (c.commitLock action).mbox = c.mbox := by
  cases action <;> rfl

omit [BlockDevice π] in
theorem mbox_commitBranch (i : Instruction) (outcome : BranchOutcome) (c : Core π) :
    (c.commitBranch i outcome).mbox = c.mbox := by
  unfold Core.commitBranch
  split
  · rfl
  · unfold Core.palReturn
    split <;> rfl
  · split <;> rfl

structure Written (content : π → Memory) (ok : π → Prop) (mem : Memory) (rest : List StoreEntry)
    (m : Mbox π) : Prop where
  memory : m.memory.Shows content ok mem
  holds : m.stores.Holds rest

theorem commitStore_writes (hd : FlatDevice content ok answers) {entry : StoreEntry}
    (hstore : e.instruction.mnemonic.stores = true)
    (hretire : CanRetire content ok answers mem e.core.mbox e.instruction entry es)
    (ha : entry.pa.toNat % entry.width.bytes = 0) :
    (commitStore e).Ends
      (fun _ t => Written content ok (mem.write entry.pa.toNat entry.bytes) es t.core.mbox)
      (fun _ _ => False) False := by
  obtain ⟨u, htaken, hcore⟩ : ∃ u : Execution π,
      update (fun i => { i with slot := none }) e = .done () u ∧ u.core = e.core := ⟨_, rfl, rfl⟩
  rw [← hcore] at hretire
  have hslot := hretire.slot
  have hwrite := Core.retireStore_ends hd hretire.memory hretire.holds ha
  unfold commitStore
  rw [bind_done (get_apply e)]
  simp only [hstore, hslot, if_true]
  rw [bind_done htaken]
  refine (ends_onPart hwrite).mono ?_ ?_ id
  · rintro _ _ ⟨c, ⟨hshows, hholds⟩, rfl⟩
    exact ⟨hshows, hholds⟩
  · rintro _ _ ⟨_, hrefused, -⟩
    exact hrefused hretire.served

theorem retire_writes (hd : FlatDevice content ok answers) {c : Core π} {i : Instruction}
    {entry : StoreEntry} (hstore : i.mnemonic.stores = true) (hready : i.isReady = true)
    (hretire : CanRetire content ok answers mem c.mbox i entry es)
    (ha : entry.pa.toNat % entry.width.bytes = 0) :
    ∃ t, c.retire i = .done () t ∧
      Written content ok (mem.write entry.pa.toNat entry.bytes) es t.core.mbox := by
  obtain ⟨Done, hDone⟩ : ∃ P : Mbox π → Prop,
    P = Written content ok (mem.write entry.pa.toNat entry.bytes) es := ⟨_, rfl⟩
  have hends : (c.retire i).Ends (fun _ t => Done t.core.mbox) (fun _ _ => False) False := by
    unfold Core.retire Execution.retire
    rw [bind_done (get_apply _), hready, if_neg (by decide)]
    refine ends_bind (P := fun _ t => t.core.mbox = c.mbox ∧ t.instruction = i)
      ⟨mbox_commitLock i.lock c, rfl⟩ ?_
    rintro _ t ⟨hbox, hi⟩
    refine ends_bind (P := fun _ u => Done u.core.mbox) ?_ fun _ u hu => ?_
    · rw [hDone]
      exact commitStore_writes hd (hi ▸ hstore) (hbox ▸ hi ▸ hretire) ha
    · cases i.branch with
      | none => exact hu
      | some outcome =>
        change Done (u.core.commitBranch i outcome).mbox
        rw [mbox_commitBranch]
        exact hu
  obtain ⟨_, t, hdone, ht⟩ := hends.exists_done
  exact ⟨t, hdone, hDone ▸ ht⟩

end Execution

end EV6
