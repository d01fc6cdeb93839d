import EV6.Proofs.Execution.Atomicity
/-!
The life of the lock over whole runs: only the retirement of a record that asks for it sets it, and
it stays until a retirement, an entry to PALcode or a probe of its line gives it up.
-/

namespace EV6

open Step Outcome Execution

namespace Lock

theorem release_of_free {l : Lock} (h : l.held = false) : l.release = l := by
  cases l
  cases h
  rfl

theorem release_ne (l : Lock) (va pa : Word) : l.release ≠ ⟨true, va, pa⟩ :=
  fun h => Bool.false_ne_true (congrArg Lock.held h)

end Lock

namespace Event

def sparesLock : Event → Bool
  | .execute _ _ | .poll | .fetch _ | .probeShare _ => true
  | .retire _ | .enterPal _ _ _ | .probeInvalidate _ => false

end Event

namespace Moment

variable {π : Type}

def acquires (m : Moment π) : Option (Word × Word) :=
  match m.retires with
  | some (_, r) =>
    match r.instruction.lock with
    | .acquire va pa => some (va, pa)
    | .none | .clear => none
  | none => none

def entersPal (m : Moment π) : Bool :=
  match m.event with
  | .enterPal _ _ _ => true
  | _ => false

def releases [BlockDevice π] (m : Moment π) (pa : Word) : Bool :=
  m.retires.any (fun (_, r) => r.instruction.lock == .clear || r.instruction.callsPal) ||
    m.entersPal || m.takes pa

end Moment

variable {π : Type} [BlockDevice π] {past : List (Moment π)} {s t : Session π} {event : Event}
  {va pa : Word}

/-- The last record that asked for the lock asked for it on these addresses, and nothing has given it
up since. -/
def HeldBy (va pa : Word) (past : List (Moment π)) : Prop :=
  ∃ older m newer, past = older ++ m :: newer ∧ m.acquires = some (va, pa) ∧
    ∀ n ∈ newer, n.acquires = none ∧ n.releases pa = false

theorem heldBy_snoc {m : Moment π} :
    HeldBy va pa (past ++ [m]) ↔ m.acquires = some (va, pa) ∨
      (m.acquires = none ∧ m.releases pa = false) ∧ HeldBy va pa past :=
  exists_since_snoc

def Moment.lockAfter (m : Moment π) : Lock :=
  match m.acquires with
  | some (va, pa) => ⟨true, va, pa⟩
  | none =>
    if m.releases m.before.core.lock.pa then m.before.core.lock.release else m.before.core.lock

theorem lockAfter_of_spared (h : event.sparesLock = true) :
    (⟨s, event⟩ : Moment π).lockAfter = s.core.lock := by
  cases event with
  | execute i fresh => rfl
  | poll => rfl
  | fetch pc => rfl
  | probeShare pa => rfl
  | retire index => cases h
  | enterPal fault seq pc => cases h
  | probeInvalidate pa => cases h

theorem callsPal_of_loadLocked {i : Instruction} (h : i.isLoadLocked = true) :
    i.callsPal = false := by
  rw [Instruction.callsPal]
  cases hm : i.mnemonic with
  | pal op =>
    cases op with
    | call => simp [Instruction.isLoadLocked, hm] at h
    | load | store | readRegister | writeRegister | ret => rfl
  | _ => rfl

theorem lockAfter_retire {index : Nat} {r : Record} (hr : s.records[index]? = some r)
    (htraced : Traced past index r) :
    (⟨s, .retire index⟩ : Moment π).lockAfter = s.core.retiredLock r.instruction := by
  have hretires : Moment.retires ⟨s, .retire index⟩ = some (index, r) := by
    simp [Moment.retires, hr]
  cases haction : r.instruction.lock with
  | none =>
    simp [Moment.lockAfter, Moment.acquires, Moment.releases, Moment.entersPal, Moment.takes,
      hretires, haction, Core.retiredLock, Core.commitLock]
  | clear =>
    simp [Moment.lockAfter, Moment.acquires, Moment.releases, hretires, haction,
      Core.retiredLock, Core.commitLock, Core.clearLock, Lock.release]
  | acquire va pa =>
    have hcalls := callsPal_of_loadLocked (htraced.loadLocked va pa haction)
    simp [Moment.lockAfter, Moment.acquires, hretires, haction, Core.retiredLock, hcalls,
      Core.commitLock, Core.acquireLock]

theorem lock_retire {index : Nat} (htracks : Tracks past s) (ht : s.step (.retire index) = .ok t) :
    t.core.lock = (⟨s, .retire index⟩ : Moment π).lockAfter := by
  rcases step_retire_ends s.core.retire_lock ht with ⟨hr, rfl⟩ | ⟨r, e, hr, hlock, rfl⟩
  · have hnone : Moment.retires ⟨t, .retire index⟩ = none := by simp [Moment.retires, hr]
    simp [Moment.lockAfter, Moment.acquires, Moment.releases, Moment.entersPal, Moment.takes, hnone]
  · exact hlock.trans (lockAfter_retire hr (htracks.records index r hr)).symm

theorem lock_probeInvalidate {pa : Word} (ht : s.step (.probeInvalidate pa) = .ok t) :
    t.core.lock = (⟨s, .probeInvalidate pa⟩ : Moment π).lockAfter := by
  have hretires : Moment.retires ⟨s, .probeInvalidate pa⟩ = none := rfl
  obtain ⟨-, ⟨r, hdone, hlock⟩ | ⟨e, hfailed, hlock⟩⟩ :=
    withOutcome_ok ht (s.core.probeInvalidate_ends pa)
  · cases hheld : s.core.lock.held with
    | false =>
      simp [hlock, Moment.lockAfter, Moment.acquires, hretires, Core.locks, Lock.release_of_free,
        hheld]
    | true =>
      simp [hlock, Moment.lockAfter, Moment.acquires, Moment.releases, Moment.entersPal,
        Moment.takes, hretires, hdone, Core.locks, hheld]
  · simp [hlock, Moment.lockAfter, Moment.acquires, Moment.releases, Moment.entersPal,
      Moment.takes, hretires, hfailed]

theorem lock_step (htracks : Tracks past s) (ht : s.step event = .ok t) :
    t.core.lock = (⟨s, event⟩ : Moment π).lockAfter := by
  cases event with
  | execute i fresh =>
    obtain ⟨e, fault, rfl, he, -⟩ := step_execute ht
    exact he.lock
  | retire index => exact lock_retire htracks ht
  | poll =>
    cases ht
    rfl
  | fetch pc => exact (withOutcome_keeps (Core.keeps_fetch pc) ht).2
  | enterPal fault seq pc =>
    cases ht
    rfl
  | probeInvalidate pa => exact lock_probeInvalidate ht
  | probeShare pa => exact (withOutcome_keeps (Core.keeps_probeShare pa) ht).2

theorem lockAfter_eq_iff {m : Moment π} :
    m.lockAfter = ⟨true, va, pa⟩ ↔ m.acquires = some (va, pa) ∨
      (m.acquires = none ∧ m.releases pa = false) ∧ m.before.core.lock = ⟨true, va, pa⟩ := by
  unfold Moment.lockAfter
  cases hacquires : m.acquires with
  | some pair =>
    obtain ⟨va', pa'⟩ := pair
    simp
  | none =>
    simp only [reduceCtorEq, true_and, false_or]
    split
    · rename_i hreleases
      refine iff_of_false (Lock.release_ne _ va pa) fun ⟨hkept, hlock⟩ => ?_
      rw [hlock] at hreleases
      rw [hreleases] at hkept
      cases hkept
    · rename_i hkept
      refine ⟨fun hlock => ⟨?_, hlock⟩, And.right⟩
      rw [hlock] at hkept
      exact eq_false_of_ne_true hkept

structure LockTracks (past : List (Moment π)) (s : Session π) : Prop where
  tracks : Tracks past s
  held : ∀ va pa, s.core.lock = ⟨true, va, pa⟩ ↔ HeldBy va pa past

theorem LockTracks.step (h : LockTracks past s) (ht : s.step event = .ok t) :
    LockTracks (past ++ [⟨s, event⟩]) t := by
  refine ⟨h.tracks.step ht, fun va pa => ?_⟩
  rw [lock_step h.tracks ht, heldBy_snoc, lockAfter_eq_iff, ← h.held]

theorem lockTracks_ofCore {core : Core π} (h : core.lock = .released) :
    LockTracks [] (Session.ofCore core) := by
  refine ⟨tracks_ofCore (congrArg Lock.held h), fun va pa => ?_⟩
  refine iff_of_false (fun hlock => ?_) fun ⟨older, m, newer, hsplit, _⟩ => ?_
  · rw [show (Session.ofCore core).core.lock = .released from h] at hlock
    cases hlock
  · simp at hsplit

theorem acquires_of_set {m : Moment π} (hbefore : m.before.core.lock.held = false)
    (hafter : m.lockAfter.held = true) :
    m.acquires = some (m.lockAfter.va, m.lockAfter.pa) := by
  have hset : m.lockAfter = ⟨true, m.lockAfter.va, m.lockAfter.pa⟩ := by rw [← hafter]
  rcases lockAfter_eq_iff.mp hset with hacquires | ⟨-, hheld⟩
  · exact hacquires
  · rw [hheld] at hbefore
    cases hbefore

omit [BlockDevice π] in
theorem enterCall_branches (e : Execution π) :
    (PalOp.enterCall e).Ends (fun _ t => t.instruction.branch.isSome = true) (fun _ _ => True) True := by
  unfold PalOp.enterCall
  rw [bind_done (get_apply e)]
  cases PalOp.callOffset e.instruction.function e.core.mode with
  | none => trivial
  | some offset => exact ends_bind (ends_any _) fun target t _ => rfl

theorem Core.execute_calls (c : Core π) {i : Instruction} (fresh : i.Fresh) :
    (c.execute i).Ends
      (fun _ t => t.instruction.mnemonic = .pal .call → t.instruction.branch.isSome = true)
      (fun _ _ => True) True := by
  by_cases hcall : i.mnemonic = .pal .call
  · change (dispatch i.mnemonic ⟨c, { i with state := .waitingRetirement }⟩).Ends _ _ _
    rw [hcall]
    exact (enterCall_branches _).mono (fun _ _ h _ => h) (fun _ _ h => h) id
  · refine (c.execute_ends fresh.lock fresh.slot).mono ?_ (fun _ _ _ => trivial) id
    rintro _ t ⟨ht, -⟩ hmnemonic
    exact absurd (ht.mnemonic.symm.trans hmnemonic) hcall

theorem Moment.Left.callsPal {m : Moment π} {index : Nat} {r : Record} (h : m.Left index r)
    (hfault : r.fault = none) : r.instruction.callsPal = true ↔ r.instruction.mnemonic = .pal .call := by
  obtain ⟨-, e, he, hlasts⟩ := h
  rcases Moment.execution_ends he fun i fresh => m.before.core.execute_calls fresh with
    ⟨hcalls, -⟩ | ⟨f, -, hf⟩
  · simp only [Instruction.callsPal, Bool.and_eq_true, beq_iff_eq, and_iff_left_iff_imp]
    intro hcall
    rw [hlasts.branch]
    exact hcalls (hlasts.mnemonic.symm.trans hcall)
  · rw [hf] at hfault
    cases hfault

structure LockMoves (past : List (Moment π)) (m : Moment π) (t : Session π) : Prop where
  spared : m.event.sparesLock = true → t.core.lock = m.before.core.lock
  acquired : ∀ va pa, m.acquires = some (va, pa) → t.core.lock = ⟨true, va, pa⟩
  set : m.before.core.lock.held = false → t.core.lock.held = true →
    m.acquires = some (t.core.lock.va, t.core.lock.pa)
  held : ∀ va pa, m.before.core.lock = ⟨true, va, pa⟩ ↔ HeldBy va pa past
  held_after : ∀ va pa, t.core.lock = ⟨true, va, pa⟩ ↔ HeldBy va pa (past ++ [m])
  calls : ∀ index r, m.retires = some (index, r) → r.fault = none →
    (r.instruction.callsPal = true ↔ r.instruction.mnemonic = .pal .call)

theorem LockTracks.moves {m : Moment π} (h : LockTracks past m.before)
    (ht : m.before.step m.event = .ok t)
    (hleft : ∀ index r, m.before.records[index]? = some r → ∃ x ∈ past, x.Left index r) :
    LockMoves past m t where
  spared hspares := (lock_step h.tracks ht).trans (lockAfter_of_spared hspares)
  acquired va pa hacquires := (lock_step h.tracks ht).trans (lockAfter_eq_iff.mpr (.inl hacquires))
  set hbefore hafter := by
    have hlock : t.core.lock = m.lockAfter := lock_step h.tracks ht
    rw [hlock] at hafter ⊢
    exact acquires_of_set hbefore hafter
  held := h.held
  held_after := (h.step ht).held
  calls index r hretires hfault := by
    obtain ⟨x, -, hx⟩ := hleft index r (Moment.record_of_retires hretires)
    exact hx.callsPal hfault

theorem lock_life_cycle {config : Config} {port : π} {core : Core π}
    (hcore : Core.ofConfig config port = .ok core) {events : List Event}
    {past rest : List (Moment π)} {m : Moment π}
    (htrace : Session.trace events (.ofCore core) = past ++ m :: rest) :
    ∃ t, m.before.step m.event = .ok t ∧ LockMoves past m t := by
  obtain ⟨t, ht⟩ := Session.trace_step htrace
  have htracks : LockTracks past m.before :=
    Session.trace_invariant LockTracks.step (lockTracks_ofCore (Core.lock_ofConfig hcore)) htrace
  exact ⟨t, ht, htracks.moves ht fun index r hr => left_of_trace htrace hr⟩

theorem lockedRun_lock_moves :
    ∃ core, Core.ofConfig lockedConfig MemoryPort.sample = .ok core ∧
      ∃ past m, Session.trace lockedRun (.ofCore core) = past ++ [m] ∧
        ∃ t, m.before.step m.event = .ok t ∧ LockMoves past m t := by
  have hcore : Core.ofConfig lockedConfig MemoryPort.sample = .ok _ := rfl
  refine ⟨_, hcore, [_, _, _, _, _], _, rfl, ?_⟩
  exact lock_life_cycle hcore (show Session.trace lockedRun _ = _ from rfl)

end EV6
