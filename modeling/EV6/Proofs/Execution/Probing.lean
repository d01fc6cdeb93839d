import EV6.Proofs.Execution.LockCycle
/-!
Probes of the line that a load with the lock has read. The load reads one physical address and asks
for the lock on another when it is an access of PALcode whose address has unimplemented bits.
-/

namespace EV6

open Step Outcome Execution

def MemoryHierarchy.ReadAt {π : Type} [BlockDevice π] (h h' : MemoryHierarchy π) (pa : Word) : Prop :=
  ∃ (width : Width) (block : List Byte) (access : Access),
    MemoryHierarchy.read pa width.bytes h = .done (block, access) h'

def Instruction.readAddress (i : Instruction) (locked : Word) : Word :=
  match i.mnemonic with
  | .pal _ => locked &&& Address.physicalMask
  | _ => locked

variable {π : Type} [BlockDevice π]

namespace Mbox

omit [BlockDevice π] in
theorem keeps_allocateLoad {ε : Type} (entry : LoadEntry) :
    Keeps memory (allocateLoad entry : Step (Mbox π) ε Nat) := by
  intro m
  rw [allocateLoad, bind_done (get_apply m)]
  cases m.loads.allocate entry with
  | error b => trivial
  | ok answer => rfl

omit [BlockDevice π] in
theorem keeps_releaseLoad {ε : Type} (slot : Nat) :
    Keeps memory (releaseLoad slot : Step (Mbox π) ε Unit) := by
  intro m
  rw [releaseLoad, bind_done (get_apply m)]
  cases m.loads.release slot with
  | error b => trivial
  | ok answer => rfl

omit [BlockDevice π] in
theorem keeps_answerLoad (i : Instruction) (slot : Nat) (access : Access)
    (f : StoreQueue.Forwarded) :
    Keeps memory (answerLoad i slot access f : Step (Mbox π) BusError (Instruction × LoadIssue)) := by
  unfold answerLoad
  split
  · exact (keeps_releaseLoad slot).bind fun _ => keeps_pure _
  · intro m
    rw [bind_done (get_apply m)]
    cases Machine.add m.polls access.latency with
    | error b => trivial
    | ok readyAt => rfl

theorem issueLoad_reads (i : Instruction) (va pa : Word) (width : Width) (m : Mbox π) :
    (issueLoad i va pa width m).Ends (fun _ t => m.memory.ReadAt t.memory pa) (fun _ _ => True)
      True := by
  unfold issueLoad
  refine ends_bind ((keeps_allocateLoad _ m).mono (fun _ _ h => h) (fun _ _ _ => trivial) id) ?_
  intro slot t ht
  refine ends_bind (P := fun answer u => MemoryHierarchy.read pa width.bytes m.memory =
    .done answer u.memory) ?_ ?_
  · refine ends_tryCatch (F := fun _ _ => True) ?_ fun e u _ => ?_
    · refine (ends_onPart (ends_any _).with_done).mono ?_ (fun _ _ _ => trivial) id
      rintro answer _ ⟨h, ⟨hread, -⟩, rfl⟩
      rw [← ht]
      exact hread
    · exact ends_bind (ends_any _) fun _ _ _ => trivial
  · rintro ⟨block, access⟩ u hread
    refine ends_bind (P := fun v w => v = u ∧ w = u) ⟨rfl, rfl⟩ ?_
    rintro v w ⟨rfl, rfl⟩
    refine ends_bind (P := fun _ u => u = w) ?_ ?_
    · cases w.stores.forward pa i.seq block with
      | error b => trivial
      | ok f => rfl
    · rintro f u rfl
      refine (keeps_answerLoad i slot access f u).mono ?_ (fun _ _ _ => trivial) id
      intro _ v hv
      refine ⟨width, block, access, ?_⟩
      rw [hv]
      exact hread

end Mbox

theorem Core.issueLoad_reads (i : Instruction) (va pa : Word) (width : Width) (c : Core π) :
    (issueLoad i va pa width c).Ends (fun _ t => c.memory.ReadAt t.memory pa) (fun _ _ => True)
      True := by
  unfold issueLoad
  refine ends_bind (P := fun _ t => c.memory.ReadAt t.memory pa) ?_ ?_
  · apply ends_mapError
    refine (ends_onPart (Mbox.issueLoad_reads i va pa width c.mbox)).mono ?_ (fun _ _ _ => trivial) id
    rintro _ _ ⟨mbox, hread, rfl⟩
    exact hread
  · rintro ⟨j, issue⟩ t hread
    have hcounts {x : CoreStep π Instruction} (hx : Keeps memory x) :
        (x t).Ends (fun _ u => c.memory.ReadAt u.memory pa) (fun _ _ => True) True := by
      refine (hx t).mono (fun _ u hu => ?_) (fun _ _ _ => trivial) id
      rw [hu]
      exact hread
    refine hcounts ((keeps_modify).bind fun _ => ?_)
    refine (keeps_modify fun _ => countWhen_same _ _ _).bind fun _ => ?_
    exact (keeps_modify fun _ => countAccess_same _ _).bind fun _ => keeps_pure _

namespace Execution

def memory (e : Execution π) : MemoryHierarchy π := e.core.memory

omit [BlockDevice π] in
theorem keeps_memory_onCore {α : Type} {x : CoreStep π α} (h : Keeps Core.lockAndMbox x) :
    Keeps memory (onCore x) := by
  intro e
  refine (ends_onPart (h e.core)).mono ?_ ?_ id
  · rintro _ _ ⟨c, hc, rfl⟩
    exact congrArg (fun c => c.2.memory) hc
  · rintro _ _ ⟨c, hc, rfl⟩
    exact congrArg (fun c => c.2.memory) hc

omit [BlockDevice π] in
theorem keeps_memory_resolve (va : Word) (width : Width) (access : AccessKind) :
    Keeps memory (resolve va width access : ExecutionStep π Word) := by
  unfold resolve
  refine keeps_get.bind fun e => ?_
  refine (keeps_memory_onCore (Core.keeps_checkAlignment _ _ _ _)).bind fun _ => ?_
  refine (keeps_memory_onCore (Core.keeps_translateData _ _ _)).bind fun pa => ?_
  exact (keeps_modify).bind fun _ => keeps_pure _

theorem issue_reads (va pa : Word) (width : Width) (e : Execution π) :
    (issue va pa width e).Ends (fun _ t => e.memory.ReadAt t.memory pa) (fun _ _ => True)
      True := by
  unfold issue
  rw [bind_done (get_apply e)]
  refine ends_bind (P := fun _ t => e.memory.ReadAt t.memory pa) ?_ fun i t hread => ?_
  · refine (ends_onPart (Core.issueLoad_reads e.instruction va pa width e.core)).mono ?_
      (fun _ _ _ => trivial) id
    rintro _ _ ⟨c, hread, rfl⟩
    exact hread
  · exact hread

theorem readVirtual_reads (va : Word) (width : Width) (e : Execution π) :
    (readVirtual va width e).Ends (fun pa t => e.memory.ReadAt t.memory pa)
      (fun _ _ => True) True := by
  unfold readVirtual
  refine ends_bind ((keeps_memory_resolve va width .read e).mono (fun _ _ h => h)
    (fun _ _ _ => trivial) id) fun pa t ht => ?_
  refine ends_bind (issue_reads va pa width t) fun _ u hread => ?_
  rw [← ht]
  exact hread

theorem readPhysical_reads (pa : Word) (width : Width) (e : Execution π) :
    (readPhysical pa width e).Ends
      (fun _ t => e.memory.ReadAt t.memory (pa &&& Address.physicalMask))
      (fun _ _ => True) True := by
  unfold readPhysical
  rw [bind_done (get_apply e)]
  refine ends_bind ((keeps_memory_onCore (Core.keeps_checkAlignment _ _ _ _) e).mono (fun _ _ h => h)
    (fun _ _ _ => trivial) id) fun _ t ht => ?_
  refine (issue_reads pa _ width t).mono ?_ (fun _ _ h => h) id
  intro _ u hread
  rw [← ht]
  exact hread

def ReadFrom (h : MemoryHierarchy π) (t : Execution π) : Prop :=
  ∀ va pa, t.instruction.lock = .acquire va pa → h.ReadAt t.memory (t.instruction.readAddress pa)

omit [BlockDevice π] in
theorem readAddress_of_fixed {e t : Execution π} (h : t.fixed = e.fixed) (pa : Word) :
    t.instruction.readAddress pa = e.instruction.readAddress pa := by
  rw [Instruction.readAddress, show t.instruction.mnemonic = _ from congrArg (·.2.1) h]
  rfl

theorem readFrom_of_fixed {h : MemoryHierarchy π} {e t : Execution π} (ht : t.fixed = e.fixed)
    (he : e.instruction.lock = .none) : ReadFrom h t := by
  intro va pa hacquire
  rw [show t.instruction.lock = _ from congrArg (·.2.2.2) ht] at hacquire
  cases he.symm.trans hacquire

theorem readFrom_of_done {h : MemoryHierarchy π} {t : Execution π} {va pa : Word}
    (hread : h.ReadAt t.memory (t.instruction.readAddress pa)) :
    ReadFrom h (t.withLock (.acquire va pa)) := by
  rintro _ _ ⟨⟩
  exact hread

theorem loadOp_readFrom {op : LoadOp} {e : Execution π} (hm : e.instruction.mnemonic = .load op)
    (hlock : e.instruction.lock = .none) :
    (op.execute e).Ends (fun _ => ReadFrom e.memory) (fun _ => ReadFrom e.memory) True := by
  unfold LoadOp.execute
  refine ends_bind (P := fun _ t => t.fixed = e.fixed ∧ t.memory = e.memory) ⟨rfl, rfl⟩ ?_
  rintro _ t ⟨hfixed, hmemory⟩
  rw [bind_done (get_apply t)]
  refine ends_bind (((keeps_readVirtual _ _ t).and (readVirtual_reads _ _ t)).mono
    (fun _ _ h => h) (fun _ _ h => readFrom_of_fixed (h.1.trans hfixed) hlock) fun _ => trivial) ?_
  rintro pa u ⟨hu, hread⟩
  split
  · apply readFrom_of_done
    rw [readAddress_of_fixed (hu.trans hfixed), Instruction.readAddress, hm, ← hmemory]
    exact hread
  · exact readFrom_of_fixed (hu.trans hfixed) hlock

theorem loadMemory_readFrom {e : Execution π} (hm : e.instruction.mnemonic = .pal .load)
    (hlock : e.instruction.lock = .none) :
    (PalOp.loadMemory e).Ends (fun _ => ReadFrom e.memory) (fun _ => ReadFrom e.memory) True := by
  unfold PalOp.loadMemory
  rw [bind_done (get_apply e)]
  refine ends_bind (P := fun _ t => t.fixed = e.fixed ∧ t.memory = e.memory) ⟨rfl, rfl⟩ ?_
  rintro _ t ⟨hfixed, hmemory⟩
  have hsame {u : Execution π} (hu : u.fixed = t.fixed) : ReadFrom e.memory u :=
    readFrom_of_fixed (hu.trans hfixed) hlock
  cases PalAccess.ofFunction e.instruction.function with
  | physical =>
    exact (keeps_readPhysical _ _ t).mono (fun _ _ => hsame) (fun _ _ => hsame) id
  | physicalLocked =>
    refine ends_bind (((keeps_readPhysical _ _ t).and (readPhysical_reads _ _ t)).mono
      (fun _ _ h => h) (fun _ _ h => hsame h.1) fun _ => trivial) ?_
    rintro _ u ⟨hu, hread⟩
    apply readFrom_of_done
    rw [readAddress_of_fixed (hu.trans hfixed), Instruction.readAddress, hm, ← hmemory]
    exact hread
  | virtual =>
    exact ((keeps_readVirtual _ _).discard t).mono (fun _ _ => hsame) (fun _ _ => hsame) id

theorem dispatch_readFrom {e : Execution π} (hload : e.instruction.isLoadLocked = true)
    (hlock : e.instruction.lock = .none) :
    (dispatch e.instruction.mnemonic e).Ends (fun _ => ReadFrom e.memory)
      (fun _ => ReadFrom e.memory) True := by
  unfold dispatch
  rw [bind_done (get_apply e)]
  split
  · exact readFrom_of_fixed rfl hlock
  · cases hm : e.instruction.mnemonic with
    | load op => exact loadOp_readFrom hm hlock
    | pal op =>
      cases op with
      | load => exact loadMemory_readFrom hm hlock
      | _ => simp [Instruction.isLoadLocked, hm] at hload
    | _ => simp [Instruction.isLoadLocked, hm] at hload

end Execution

theorem Core.execute_readFrom (c : Core π) {i : Instruction} (fresh : i.Fresh) :
    (c.execute i).Ends (fun _ => ReadFrom c.memory) (fun _ => ReadFrom c.memory) True := by
  cases hload : i.isLoadLocked with
  | false =>
    have hnone {t : Execution π} (ht : Executed ⟨c, i⟩ t) : ReadFrom c.memory t := by
      intro va pa hacquire
      cases hload.symm.trans (ht.loadLocked va pa hacquire)
    exact (c.execute_ends fresh.lock fresh.slot).mono (fun _ _ h => hnone h.1) (fun _ _ => hnone) id
  | true =>
    exact dispatch_readFrom (e := ⟨c, { i with state := .waitingRetirement }⟩) hload fresh.lock

variable (π) in
def BlockDevice.Breaks : Prop :=
  ∃ (p : π) (addr : Word) (data : List Byte) (b : Breach), writeBlock addr data p = .broken b

namespace MemoryHierarchy

theorem writeBackDirty_breaks (victims : List Victim) (h : MemoryHierarchy π) :
    (writeBackDirty victims h).Ends (fun _ _ => True) (fun _ _ => True) (BlockDevice.Breaks π) := by
  induction victims generalizing h with
  | nil => trivial
  | cons v rest ih =>
    rw [writeBackDirty]
    split
    · refine ends_bind (P := fun _ _ => True) ?_ fun _ t _ => ends_bind (ih t) fun _ _ _ => trivial
      unfold writeBack onPort
      refine (ends_onPart (P := fun _ _ => True) (F := fun _ _ => True)
        (B := BlockDevice.Breaks π) ?_).mono (fun _ _ _ => trivial) (fun _ _ _ => trivial) id
      cases hwrite : BlockDevice.writeBlock v.addr v.data h.port with
      | done a p => trivial
      | failed e p => trivial
      | broken b => exact ⟨h.port, v.addr, v.data, b, hwrite⟩
    · exact ih h

theorem probeInvalidate_breaks (addr : Word) (h : MemoryHierarchy π) :
    (probeInvalidate addr h).Ends (fun _ _ => True) (fun _ _ => True) (BlockDevice.Breaks π) := by
  unfold probeInvalidate
  refine ends_bind (P := fun _ _ => True) trivial fun _ t _ => ?_
  refine ends_bind (P := fun _ _ => True) trivial fun victims u _ => ?_
  exact ends_bind (writeBackDirty_breaks victims u) fun _ _ _ => trivial

end MemoryHierarchy

namespace Core

theorem probeInvalidate_breaks (addr : Word) (c : Core π) :
    (probeInvalidate addr c).Ends (fun _ _ => True) (fun _ _ => True) (BlockDevice.Breaks π) := by
  unfold probeInvalidate
  refine ends_bind (P := fun _ _ => True) ?_ fun _ _ _ => trivial
  unfold onMemory onMbox Mbox.onMemory
  refine (ends_onPart (ends_onPart (MemoryHierarchy.probeInvalidate_breaks addr c.memory))).mono ?_ ?_ id
  · exact fun _ _ _ => trivial
  · exact fun _ _ _ => trivial

theorem probeInvalidate_held {c : Core π} {va pa : Word} (hlock : c.lock = ⟨true, va, pa⟩)
    (addr : Word) :
    let line := c.memory.dcache.lineBytes
    (probeInvalidate addr c).Ends
      (fun _ t => t.lock.held = false ↔ Address.lineBase pa line = Address.lineBase addr line)
      (fun _ t => t.lock.held = true) (BlockDevice.Breaks π) := by
  intro line
  refine ((probeInvalidate_ends addr c).and (probeInvalidate_breaks addr c)).mono ?_ ?_ And.right
  · rintro _ t ⟨ht, -⟩
    have hlocks : c.locks addr = true ↔ Address.lineBase pa line = Address.lineBase addr line := by
      simp [locks, hlock, line]
    rw [ht, ← hlocks]
    cases c.locks addr with
    | true => simp [Lock.release]
    | false => simp [hlock]
  · rintro _ t ⟨ht, -⟩
    rw [ht, hlock]

end Core

def ReadBefore (past : List (Moment π)) (index : Nat) (pa : Word) : Prop :=
  ∃ x ∈ past, x.executes = some index ∧
    ∃ fault e, x.execution = some (fault, e) ∧ x.before.core.memory.ReadAt e.core.memory pa

theorem Moment.Left.readBefore {past : List (Moment π)} {x : Moment π} {index : Nat} {r : Record}
    {va pa : Word} (h : x.Left index r) (hx : x ∈ past) (hr : r.instruction.lock = .acquire va pa) :
    ReadBefore past index (r.instruction.readAddress pa) := by
  obtain ⟨hindex, e, he, hlasts⟩ := h
  refine ⟨x, hx, hindex, r.fault, e, he, ?_⟩
  have hread : ReadFrom x.before.core.memory e := by
    rcases Moment.execution_ends he fun i fresh => x.before.core.execute_readFrom fresh with
      ⟨hread, -⟩ | ⟨f, hread, -⟩
    · exact hread
    · exact hread
  rw [Instruction.readAddress, hlasts.mnemonic]
  exact hread va pa (hlasts.lock.symm.trans hr)

theorem lock_after_probe {config : Config} {port : π} {core : Core π}
    (hcore : Core.ofConfig config port = .ok core) {events : List Event}
    {older newer rest : List (Moment π)} {a m : Moment π}
    (htrace : Session.trace events (.ofCore core) = older ++ a :: newer ++ m :: rest)
    {index : Nat} {r : Record} (ha : a.retires = some (index, r)) {va pa : Word}
    (hr : r.instruction.lock = .acquire va pa)
    (hnewer : ∀ n ∈ newer, n.acquires = none ∧ n.releases pa = false) :
    let q := r.instruction.readAddress pa
    let line := m.before.core.memory.dcache.lineBytes
    ReadBefore older index q ∧ m.before.core.lock = ⟨true, va, pa⟩ ∧
      ∀ probed, Address.lineBase probed line = Address.lineBase q line →
        (Core.probeInvalidate probed m.before.core).Ends
          (fun _ c => c.lock.held = false ↔ Address.lineBase pa line = Address.lineBase q line)
          (fun _ c => c.lock.held = true) (BlockDevice.Breaks π) := by
  intro q line
  have htracks : LockTracks (older ++ a :: newer) m.before :=
    Session.trace_invariant LockTracks.step (lockTracks_ofCore (Core.lock_ofConfig hcore)) htrace
  have hacquires : a.acquires = some (va, pa) := by simp [Moment.acquires, ha, hr]
  have hlock : m.before.core.lock = ⟨true, va, pa⟩ :=
    (htracks.held va pa).mpr ⟨older, a, newer, rfl, hacquires, hnewer⟩
  refine ⟨?_, hlock, fun probed hprobed => ?_⟩
  · have hfirst : Session.trace events (.ofCore core) = older ++ a :: (newer ++ m :: rest) := by
      simpa using htrace
    obtain ⟨x, hx, hleft⟩ := left_of_trace hfirst (Moment.record_of_retires ha)
    exact hleft.readBefore hx hr
  · rw [← hprobed]
    exact Core.probeInvalidate_held hlock probed

def aliasedLoad : Instruction :=
  { Instruction.ofMnemonic (.pal .load) 1 with function := 3, first := .int 0x100000000100 }

def aliasedRun : List Event :=
  [.enterPal .opcodeReserved 0 0, .execute aliasedLoad ⟨rfl, rfl⟩, .retire 0, .poll]

theorem aliasedRun_keeps_lock :
    ∃ core, Core.ofConfig lockedConfig MemoryPort.sample = .ok core ∧
      ∃ older a m, Session.trace aliasedRun (.ofCore core) = older ++ a :: [] ++ [m] ∧
        ReadBefore older 0 0x100 ∧
        (Core.probeInvalidate 0x100 m.before.core).Ends (fun _ c => c.lock.held = true)
          (fun _ c => c.lock.held = true) (BlockDevice.Breaks MemoryPort) := by
  obtain ⟨core, hcore, older, a, m, htrace, record, hretires, hacquire, hread, hline⟩ :
      ∃ core, Core.ofConfig lockedConfig MemoryPort.sample = .ok core ∧
        ∃ older a m, Session.trace aliasedRun (.ofCore core) = older ++ a :: [] ++ [m] ∧
          ∃ r, a.retires = some (0, r) ∧
            r.instruction.lock = .acquire 0x100000000100 0x100000000100 ∧
            r.instruction.readAddress 0x100000000100 = 0x100 ∧
            m.before.core.memory.dcache.lineBytes = 64 :=
    ⟨_, rfl, [_, _], _, _, rfl, _, rfl, rfl, rfl, rfl⟩
  obtain ⟨hbefore, -, hprobe⟩ := lock_after_probe hcore htrace hretires hacquire (by simp)
  rw [hread] at hbefore hprobe
  refine ⟨core, hcore, older, a, m, htrace, hbefore, (hprobe 0x100 rfl).mono ?_ ?_ id⟩
  · intro _ c hlost
    rw [hline] at hlost
    exact eq_true_of_ne_false fun hfree => absurd (hlost.mp hfree) (by decide)
  · exact fun _ c hheld => hheld

end EV6
