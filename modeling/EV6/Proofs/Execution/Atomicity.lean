import EV6.Proofs.Config.Valid
import EV6.Proofs.Execution.Records
import EV6.Proofs.Storage.Memory
/-!
Stores that need the lock, over whole runs. Such a store is decided when it is executed: it
succeeds only if nothing came between since a load set the lock. What happens between its execution
and its retirement has no say in it any more.
-/

namespace EV6

open Step Outcome Execution

def Record.succeeded (r : Record) : Bool :=
  r.instruction.isStoreConditional && r.fault.isNone && r.instruction.dest == .int 1

namespace Moment

variable {π : Type}

def locks (m : Moment π) : Option Word :=
  match m.retires with
  | some (_, r) =>
    match r.instruction.isLoadLocked, r.instruction.lock with
    | true, .acquire _ pa => some pa
    | _, _ => none
  | none => none

def stores (m : Moment π) : Option Nat :=
  (m.retires.filter fun (_, r) => r.succeeded).map (·.1)

/-- Nothing happens to the lock on an address, by another load, by a store or by another agent. -/
def Quiet [BlockDevice π] (m : Moment π) (pa : Word) : Prop :=
  m.locks = none ∧ m.stores = none ∧ m.takes pa = false

end Moment

variable {π : Type} [BlockDevice π] {past : List (Moment π)} {s t : Session π} {event : Event}

/-- The last load that set the lock set it on the address, and nothing came between since. -/
def LockedSince (pa : Word) (past : List (Moment π)) : Prop :=
  ∃ older m newer, past = older ++ m :: newer ∧ m.locks = some pa ∧ ∀ n ∈ newer, n.Quiet pa

theorem lockedSince_snoc {pa : Word} {m : Moment π} :
    LockedSince pa (past ++ [m]) ↔ m.locks = some pa ∨ m.Quiet pa ∧ LockedSince pa past :=
  exists_since_snoc

def DecidedLocked (past : List (Moment π)) (index : Nat) : Prop :=
  ∃ older m newer pa, past = older ++ m :: newer ∧ m.executes = some index ∧ LockedSince pa older

theorem DecidedLocked.snoc {index : Nat} (h : DecidedLocked past index) (m : Moment π) :
    DecidedLocked (past ++ [m]) index := by
  obtain ⟨older, x, newer, pa, rfl, hx, hlocked⟩ := h
  exact ⟨older, x, newer ++ [m], pa, by simp, hx, hlocked⟩

structure Traced (past : List (Moment π)) (index : Nat) (r : Record) : Prop where
  loadLocked : ∀ va pa, r.instruction.lock = .acquire va pa → r.instruction.isLoadLocked = true
  gives_up : r.instruction.isStoreConditional = true → r.fault = none → r.instruction.lock = .clear
  decided : r.instruction.isStoreConditional = true → r.fault = none →
    r.instruction.slot = none ∧ r.instruction.dest = .int 0 ∨ DecidedLocked past index

theorem Traced.snoc {index : Nat} {r : Record} (h : Traced past index r) (m : Moment π) :
    Traced (past ++ [m]) index r :=
  ⟨h.loadLocked, h.gives_up, fun hc hf => (h.decided hc hf).imp_right (·.snoc m)⟩

theorem Record.succeeded_iff {r : Record} :
    r.succeeded = true ↔ r.instruction.isStoreConditional = true ∧ r.fault = none ∧
      r.instruction.dest = .int 1 := by
  simp [succeeded, and_assoc]

theorem Traced.lock_of_succeeded {index : Nat} {r : Record} (h : Traced past index r)
    (hs : r.succeeded = true) : r.instruction.lock = .clear := by
  obtain ⟨hc, hf, -⟩ := Record.succeeded_iff.mp hs
  exact h.gives_up hc hf

theorem Traced.decided_of_succeeded {index : Nat} {r : Record} (h : Traced past index r)
    (hs : r.succeeded = true) : DecidedLocked past index := by
  obtain ⟨hc, hf, hdest⟩ := Record.succeeded_iff.mp hs
  rcases h.decided hc hf with ⟨-, hzero⟩ | hdecided
  · rw [hdest] at hzero
    exact absurd hzero (by decide)
  · exact hdecided

theorem Instruction.Lasts.roles {i j : Instruction} (h : i.Lasts j) :
    j.isLoadLocked = i.isLoadLocked ∧ j.isStoreConditional = i.isStoreConditional ∧
      j.lock = i.lock := by
  have hfixed := h.fixed
  simp only [Instruction.fixed, Prod.mk.injEq] at hfixed
  obtain ⟨hmnemonic, hfunction, hlock⟩ := hfixed
  simp only [Instruction.isLoadLocked, Instruction.isStoreConditional, hmnemonic, hfunction, hlock,
    and_self]

theorem Traced.lasts {index : Nat} {r : Record} {j : Instruction} (h : Traced past index r)
    (hj : r.instruction.Lasts j) : Traced past index { r with instruction := j } := by
  obtain ⟨hload, hstore, hlock⟩ := hj.roles
  refine ⟨fun va pa hacquire => ?_, fun hc hf => ?_, fun hc hf => ?_⟩
  · exact hload.trans (h.loadLocked va pa (hlock ▸ hacquire))
  · exact hlock.trans (h.gives_up (hstore ▸ hc) hf)
  · refine (h.decided (hstore ▸ hc) hf).imp_left ?_
    rintro ⟨hslot, hdest⟩
    obtain ⟨hslot', hdest'⟩ := hj.settled hslot
    exact ⟨hslot', hdest'.trans hdest⟩

structure Tracks (past : List (Moment π)) (s : Session π) : Prop where
  held : s.core.lock.held = true → LockedSince s.core.lock.pa past
  records : ∀ index r, s.records[index]? = some r → Traced past index r

theorem records_execute {i : Instruction} {fresh : i.Fresh} (htracks : Tracks past s)
    (ht : s.step (.execute i fresh) = .ok t) {n : Nat} {r : Record} (hr : t.records[n]? = some r) :
    Traced (past ++ [⟨s, .execute i fresh⟩]) n r := by
  obtain ⟨e, fault, rfl, he, hdecided⟩ := step_execute ht
  rw [Array.getElem?_push] at hr
  split at hr
  · rename_i hn
    subst hn
    cases hr
    have hload : e.instruction.isLoadLocked = i.isLoadLocked := by
      simp only [Instruction.isLoadLocked, he.mnemonic, he.function]
    have hstore : e.instruction.isStoreConditional = i.isStoreConditional := by
      simp only [Instruction.isStoreConditional, he.mnemonic, he.function]
    refine ⟨fun va pa h => hload.trans (he.loadLocked va pa h), fun hc hf => ?_, fun hc hf => ?_⟩
    · exact (hdecided hf (hstore ▸ hc)).gives_up
    · have hd := hdecided hf (hstore ▸ hc)
      cases hheld : s.core.lock.held with
      | false =>
        obtain ⟨hdest, hslot⟩ := hd.refuses hheld
        exact .inl ⟨hslot, hdest⟩
      | true => exact .inr ⟨past, _, [], _, rfl, rfl, htracks.held hheld⟩
  · exact (htracks.records n r hr).snoc _

theorem Tracks.follows (h : Tracks past s) (hf : Follows s t) (m : Moment π) {n : Nat} {r : Record}
    (hr : t.records[n]? = some r) : Traced (past ++ [m]) n r := by
  obtain ⟨q, j, hq, hlasts, rfl⟩ := hf n r hr
  exact ((h.records n q hq).lasts hlasts).snoc m

def LeavesLock (m : Moment π) (t : Session π) : Prop :=
  t.core.lock.held = true →
    m.locks = some t.core.lock.pa ∨ m.Quiet t.core.lock.pa ∧ t.core.lock = m.before.core.lock

theorem leavesLock_retire {index : Nat} (htracks : Tracks past s)
    (ht : s.step (.retire index) = .ok t) : LeavesLock ⟨s, .retire index⟩ t := by
  intro hheld
  rcases step_retire_ends s.core.retire_ends ht with ⟨hr, rfl⟩ | ⟨r, e, hr, he, rfl⟩
  · have hnone : Moment.retires ⟨t, .retire index⟩ = none := by simp [Moment.retires, hr]
    exact .inr ⟨⟨by simp [Moment.locks, hnone], by simp [Moment.stores, hnone], rfl⟩, rfl⟩
  · have hsome : Moment.retires ⟨s, .retire index⟩ = some (index, r) := by simp [Moment.retires, hr]
    have hlock : e.core.lock = (s.core.commitLock r.instruction.lock).lock := by
      rcases he.lock with hlock | hfree
      · exact hlock
      · rw [show e.core.lock.held = true from hheld] at hfree
        cases hfree
    have hr' := htracks.records index r hr
    cases haction : r.instruction.lock with
    | none =>
      rw [haction] at hlock
      refine .inr ⟨⟨by simp [Moment.locks, hsome, haction], ?_, rfl⟩, hlock⟩
      cases hs : r.succeeded with
      | false => simp [Moment.stores, hsome, hs]
      | true =>
        have hclear := hr'.lock_of_succeeded hs
        rw [haction] at hclear
        cases hclear
    | acquire va pa =>
      rw [haction] at hlock
      have hload := hr'.loadLocked va pa haction
      refine .inl ?_
      change _ = some e.core.lock.pa
      rw [hlock]
      simp [Moment.locks, hsome, haction, hload, Core.commitLock, Core.acquireLock]
    | clear =>
      rw [haction] at hlock
      have hfree : e.core.lock.held = false := congrArg Lock.held hlock
      rw [show e.core.lock.held = true from hheld] at hfree
      cases hfree

theorem leavesLock_probeInvalidate {pa : Word} (ht : s.step (.probeInvalidate pa) = .ok t) :
    LeavesLock ⟨s, .probeInvalidate pa⟩ t := by
  intro hheld
  refine .inr ?_
  obtain ⟨-, ⟨r, hdone, hlock⟩ | ⟨e, hfailed, hlock⟩⟩ :=
    withOutcome_ok ht (s.core.probeInvalidate_ends pa)
  · split at hlock
    · have hfree : t.core.lock.held = false := congrArg Lock.held hlock
      rw [hheld] at hfree
      cases hfree
    · rename_i hkept
      refine ⟨⟨rfl, rfl, ?_⟩, hlock⟩
      have hfree : s.core.locks pa = false := by simpa using hkept
      rw [Core.locks, ← hlock, hheld] at hfree
      simpa [Moment.takes, hdone] using hfree
  · exact ⟨⟨rfl, rfl, by simp [Moment.takes, hfailed]⟩, hlock⟩

theorem leavesLock {event : Event} (htracks : Tracks past s) (ht : s.step event = .ok t) :
    LeavesLock ⟨s, event⟩ t := by
  cases event with
  | execute i fresh =>
    obtain ⟨e, fault, rfl, he, -⟩ := step_execute ht
    exact fun _ => .inr ⟨⟨rfl, rfl, rfl⟩, he.lock⟩
  | retire index => exact leavesLock_retire htracks ht
  | poll =>
    cases ht
    exact fun _ => .inr ⟨⟨rfl, rfl, rfl⟩, rfl⟩
  | fetch pc => exact fun _ => .inr ⟨⟨rfl, rfl, rfl⟩, (withOutcome_keeps (Core.keeps_fetch pc) ht).2⟩
  | enterPal fault seq pc =>
    cases ht
    intro hheld
    cases hheld
  | probeInvalidate pa => exact leavesLock_probeInvalidate ht
  | probeShare pa =>
    exact fun _ => .inr ⟨⟨rfl, rfl, rfl⟩, (withOutcome_keeps (Core.keeps_probeShare pa) ht).2⟩

theorem records_step {event : Event} (htracks : Tracks past s) (ht : s.step event = .ok t) {n : Nat}
    {r : Record} (hr : t.records[n]? = some r) : Traced (past ++ [⟨s, event⟩]) n r := by
  rcases follows_or_executes ht with hfollows | ⟨i, fresh, rfl⟩
  · exact htracks.follows hfollows _ hr
  · exact records_execute htracks ht hr

theorem Tracks.step (htracks : Tracks past s) (ht : s.step event = .ok t) :
    Tracks (past ++ [⟨s, event⟩]) t := by
  refine ⟨fun hheld => ?_, fun n r hr => records_step htracks ht hr⟩
  rw [lockedSince_snoc]
  refine (leavesLock htracks ht hheld).imp_right ?_
  rintro ⟨hquiet, hlock⟩
  refine ⟨hquiet, ?_⟩
  have hbefore : s.core.lock.held = true := by
    rw [← hheld, hlock]
  rw [hlock]
  exact htracks.held hbefore

theorem tracks_ofCore {core : Core π} (h : core.lock.held = false) :
    Tracks [] (Session.ofCore core) := by
  refine ⟨fun hheld => ?_, fun n r hr => ?_⟩
  · rw [show core.lock.held = true from hheld] at h
    cases h
  · simp [Session.ofCore] at hr

omit [BlockDevice π] in
theorem Core.lock_ofConfig {config : Config} {port : π} {core : Core π}
    (h : Core.ofConfig config port = .ok core) : core.lock = .released := (Core.fresh_ofConfig h).lock

omit [BlockDevice π] in
theorem Moment.stores_eq_some {m : Moment π} {index : Nat} (h : m.stores = some index) :
    ∃ r, m.before.records[index]? = some r ∧ r.succeeded = true := by
  simp only [Moment.stores, Option.map_eq_some_iff, Option.filter_eq_some_iff] at h
  obtain ⟨⟨n, r⟩, ⟨hretires, hs⟩, rfl⟩ := h
  exact ⟨r, Moment.record_of_retires hretires, hs⟩

theorem conditional_store_was_locked {config : Config} {port : π} {core : Core π}
    (hcore : Core.ofConfig config port = .ok core) {events : List Event}
    {past rest : List (Moment π)} {m : Moment π} {index : Nat}
    (htrace : Session.trace events (.ofCore core) = past ++ m :: rest)
    (hm : m.stores = some index) : DecidedLocked past index := by
  have hstart := tracks_ofCore (congrArg Lock.held (Core.lock_ofConfig hcore))
  have htracks : Tracks past m.before := Session.trace_invariant Tracks.step hstart htrace
  obtain ⟨r, hr, hs⟩ := Moment.stores_eq_some hm
  exact (htracks.records index r hr).decided_of_succeeded hs

/-! Two stores that are executed before the first of them is retired both had the lock. -/

def lockedConfig : Config :=
  { Config.stock with
    memory := { MemoryConfig.stock with superpageEnable := 7, memoryLatency := 0 } }

def lockedAccess (m : Mnemonic) (seq : Nat) : Instruction :=
  { Instruction.ofMnemonic m seq with first := .int 0xFFFF800000000100 }

def lockedRun : List Event :=
  [.execute (lockedAccess (.load .ldqLocked) 1) ⟨rfl, rfl⟩, .retire 0,
    .execute (lockedAccess (.store .stqConditional) 2) ⟨rfl, rfl⟩,
    .execute (lockedAccess (.store .stqConditional) 3) ⟨rfl, rfl⟩, .retire 1, .retire 2]

theorem lockedRun_decided :
    ∃ core, Core.ofConfig lockedConfig MemoryPort.sample = .ok core ∧
      ∃ past m, Session.trace lockedRun (.ofCore core) = past ++ [m] ∧ m.stores = some 2 ∧
        DecidedLocked past 2 := by
  have hcore : Core.ofConfig lockedConfig MemoryPort.sample = .ok _ := rfl
  refine ⟨_, hcore, [_, _, _, _, _], _, rfl, rfl, ?_⟩
  exact conditional_store_was_locked hcore (show Session.trace lockedRun _ = _ from rfl) rfl

theorem lockedRun_stores_after_another :
    ∃ core, Core.ofConfig lockedConfig MemoryPort.sample = .ok core ∧
      ∃ past m, Session.trace lockedRun (.ofCore core) = past ++ [m] ∧ m.stores = some 2 ∧
        ∀ pa, ¬LockedSince pa past := by
  have hcore : Core.ofConfig lockedConfig MemoryPort.sample = .ok _ := rfl
  refine ⟨_, hcore, [_, _, _, _] ++ [_], _, rfl, rfl, fun pa h => ?_⟩
  rcases lockedSince_snoc.mp h with hlocks | ⟨⟨-, hstores, -⟩, -⟩
  · cases hlocks
  · cases hstores

end EV6
