import EV6.Execution.Retirement
import EV6.Proofs.Execution.Lock

namespace EV6

open Step Outcome

namespace Instruction

structure Lasts (i j : Instruction) : Prop where
  fixed : j.fixed = i.fixed
  branch : j.branch = i.branch
  settled : i.slot = none → j.slot = none ∧ j.dest = i.dest

theorem Lasts.refl (i : Instruction) : Lasts i i := ⟨rfl, rfl, fun h => ⟨h, rfl⟩⟩

theorem Lasts.trans {i j k : Instruction} (h : Lasts i j) (h' : Lasts j k) : Lasts i k := by
  refine ⟨h'.fixed.trans h.fixed, h'.branch.trans h.branch, fun hi => ?_⟩
  obtain ⟨hj, hdest⟩ := h.settled hi
  obtain ⟨hk, hdest'⟩ := h'.settled hj
  exact ⟨hk, hdest'.trans hdest⟩

theorem Lasts.mnemonic {i j : Instruction} (h : Lasts i j) : j.mnemonic = i.mnemonic :=
  congrArg (·.1) h.fixed

theorem Lasts.lock {i j : Instruction} (h : Lasts i j) : j.lock = i.lock :=
  congrArg (·.2.2) h.fixed

end Instruction

namespace Execution

variable {π : Type}

theorem commitStore_ends [BlockDevice π] (e : Execution π) :
    (commitStore e).Ends
      (fun _ t => t.core.lock = e.core.lock ∧ e.instruction.Lasts t.instruction)
      (fun _ t => t.core.lock = e.core.lock ∧ e.instruction.Lasts t.instruction) True := by
  unfold commitStore
  rw [bind_done (get_apply e)]
  split
  · cases hslot : e.instruction.slot with
    | none => exact ⟨rfl, .refl _⟩
    | some slot =>
      have taken : e.instruction.Lasts { e.instruction with slot := none } :=
        ⟨rfl, rfl, fun h => by rw [hslot] at h; cases h⟩
      refine ends_bind (P := fun _ t => t.core.lock = e.core.lock ∧ e.instruction.Lasts t.instruction)
        ⟨rfl, taken⟩ ?_
      rintro _ t ⟨ht, hi⟩
      refine (ends_onPart (Core.keeps_retireStore slot t.core)).mono ?_ ?_ id
      · rintro _ _ ⟨c, hc, rfl⟩
        exact ⟨hc.trans ht, hi⟩
      · rintro _ _ ⟨c, hc, rfl⟩
        exact ⟨hc.trans ht, hi⟩
  · exact ⟨rfl, .refl _⟩

theorem lock_commitBranch (i : Instruction) (outcome : BranchOutcome) (c : Core π) :
    (c.commitBranch i outcome).lock = c.lock ∨ (c.commitBranch i outcome).lock.held = false := by
  unfold Core.commitBranch
  split
  · exact .inr rfl
  · refine .inl ?_
    unfold Core.palReturn
    split <;> rfl
  · refine .inl ?_
    split <;> rfl

structure Retired (c : Core π) (i : Instruction) (t : Execution π) : Prop where
  lock : t.core.lock = (c.commitLock i.lock).lock ∨ t.core.lock.held = false
  record : i.Lasts t.instruction

theorem Retired.of_lock {c : Core π} {i : Instruction} {t u : Execution π} (h : Retired c i t)
    (hlock : u.core.lock = t.core.lock ∨ u.core.lock.held = false)
    (hi : t.instruction.Lasts u.instruction) : Retired c i u := by
  refine ⟨?_, h.record.trans hi⟩
  rcases hlock with hsame | hfree
  · rw [hsame]
    exact h.lock
  · exact .inr hfree

theorem finish_ends {c : Core π} {i : Instruction} {t : Execution π} (h : Retired c i t)
    (m : Mnemonic) :
    ((do onCoreState (·.count (.countRetired m)); update fun i => { i with state := .retired })
      t : Outcome (Execution π) Fault Unit).Ends (fun _ => Retired c i) (fun _ => Retired c i) True :=
  h.of_lock (.inl rfl) ⟨rfl, rfl, fun h => ⟨h, rfl⟩⟩

end Execution

open Execution

theorem Core.retire_ends {π : Type} [BlockDevice π] (c : Core π) (i : Instruction) :
    (c.retire i).Ends (fun _ => Retired c i) (fun _ => Retired c i) True := by
  unfold Core.retire Execution.retire
  rw [bind_done (get_apply _)]
  split
  · trivial
  · refine ends_bind (P := fun _ => Retired c i) ⟨.inl rfl, .refl i⟩ fun _ t ht => ?_
    refine ends_bind (P := fun _ => Retired c i) ?_ fun _ u hu => ?_
    · exact (commitStore_ends t).mono (fun _ _ h => ht.of_lock (.inl h.1) h.2)
        (fun _ _ h => ht.of_lock (.inl h.1) h.2) id
    · cases hb : i.branch with
      | none => exact finish_ends hu i.mnemonic
      | some outcome =>
        refine ends_bind (P := fun _ => Retired c i) ?_ fun _ v hv => finish_ends hv i.mnemonic
        exact hu.of_lock (lock_commitBranch i outcome u.core) (.refl _)

def Instruction.callsPal (i : Instruction) : Bool :=
  i.mnemonic == .pal .call && i.branch.isSome

def Core.retiredLock {π : Type} (c : Core π) (i : Instruction) : Lock :=
  if i.callsPal then (c.commitLock i.lock).lock.release else (c.commitLock i.lock).lock

namespace Execution

variable {π : Type}

theorem commitStore_idle [BlockDevice π] {e : Execution π}
    (h : e.instruction.mnemonic.stores = false) : commitStore e = .done () e := by
  rw [commitStore, bind_done (get_apply e), h]
  rfl

theorem lock_commitBranch_of_ne {i : Instruction} (h : i.mnemonic ≠ .pal .call)
    (outcome : BranchOutcome) (c : Core π) : (c.commitBranch i outcome).lock = c.lock := by
  unfold Core.commitBranch
  split
  · exact absurd ‹_› h
  · unfold Core.palReturn
    split <;> rfl
  · split <;> rfl

end Execution

def Core.committed {π : Type} (c : Core π) (i : Instruction) : Core π :=
  match i.branch with
  | none => c
  | some outcome => c.commitBranch i outcome

theorem Core.retire_idle {π : Type} [BlockDevice π] (c : Core π) {i : Instruction}
    (hstores : i.mnemonic.stores = false) :
    (c.retire i).Ends
      (fun _ t => t.core = ((c.commitLock i.lock).committed i).count (.countRetired i.mnemonic))
      (fun _ _ => False) (i.isReady = false) := by
  have hidle : commitStore (⟨c.commitLock i.lock, i⟩ : Execution π) = .done () _ :=
    commitStore_idle hstores
  unfold Core.retire Execution.retire
  rw [bind_done (get_apply _)]
  split
  · rename_i hunfinished
    exact Bool.not_eq_true' _ ▸ hunfinished
  · refine ends_bind (P := fun _ t => t = ⟨c.commitLock i.lock, i⟩) ?_ ?_
    · exact rfl
    rintro _ _ rfl
    refine ends_bind (P := fun _ t => t = ⟨c.commitLock i.lock, i⟩) ?_ ?_
    · rw [hidle]
      exact rfl
    rintro _ _ rfl
    unfold committed
    cases hbranch : i.branch with
    | none => exact rfl
    | some outcome => exact rfl

theorem Core.retire_lock {π : Type} [BlockDevice π] (c : Core π) (i : Instruction) :
    (c.retire i).Ends (fun _ t => t.core.lock = c.retiredLock i)
      (fun _ t => t.core.lock = c.retiredLock i) True := by
  cases hcalls : i.callsPal with
  | true =>
    simp only [Instruction.callsPal, Bool.and_eq_true, beq_iff_eq, Option.isSome_iff_exists] at hcalls
    obtain ⟨hcall, outcome, hbranch⟩ := hcalls
    have hlock : c.retiredLock i = (c.commitLock i.lock).lock.release := by
      simp [retiredLock, Instruction.callsPal, hcall, hbranch]
    refine (c.retire_idle (by rw [hcall]; rfl)).mono (fun _ t ht => ?_) (fun _ _ h => h.elim)
      fun _ => trivial
    rw [ht, hlock]
    unfold committed commitBranch
    rw [hbranch, hcall]
    rfl
  | false =>
    have hlock : c.retiredLock i = (c.commitLock i.lock).lock := by simp [retiredLock, hcalls]
    rw [hlock]
    unfold Core.retire Execution.retire
    rw [bind_done (get_apply _)]
    split
    · trivial
    · refine ends_bind (P := fun _ t => t.core.lock = (c.commitLock i.lock).lock) ?_ fun _ t ht => ?_
      · exact rfl
      refine ends_bind (P := fun _ t => t.core.lock = (c.commitLock i.lock).lock) ?_ fun _ u hu => ?_
      · exact (commitStore_ends t).mono (fun _ _ h => h.1.trans ht) (fun _ _ h => h.1.trans ht) id
      · cases hbranch : i.branch with
        | none => exact hu
        | some outcome =>
          have hne : i.mnemonic ≠ .pal .call := by
            intro hcall
            simp [Instruction.callsPal, hcall, hbranch] at hcalls
          exact (lock_commitBranch_of_ne hne outcome u.core).trans hu

end EV6
