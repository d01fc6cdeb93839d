import EV6.Core.Memory
import EV6.Core.Privileged
import EV6.Proofs.Fault.Keeps
/-!
The lock in the services of the core. Only a probe takes it away, when it invalidates the line that
the lock is on.
-/

namespace EV6

open Step Outcome

theorem Cache.lineBytes_invalidate (c : Cache) (addr : Word) :
    (c.invalidate addr).2.lineBytes = c.lineBytes := by
  unfold Cache.invalidate
  split <;> rfl

namespace MemoryHierarchy

variable {π : Type}

def dcacheLine (h : MemoryHierarchy π) : Nat := h.dcache.lineBytes

theorem keeps_onCache {α : Type} (name : CacheName) (hname : name ≠ .dcache)
    (x : Step Cache BusError α) : Keeps dcacheLine (onCache name x : MemoryStep π α) := by
  apply keeps_onPart
  intro c h
  cases name with
  | icache | bcache => rfl
  | dcache => exact absurd rfl hname

theorem keeps_onPort {α : Type} (x : Step π BusError α) : Keeps dcacheLine (onPort x) := by
  apply keeps_onPart
  intro port h
  rfl

theorem keeps_takeLine (addr : Word) : Keeps dcacheLine (takeLine addr : MemoryStep π _) := by
  unfold takeLine
  refine Keeps.bind (fun h => ?_) fun _ =>
    (keeps_onCache .bcache (by decide) _).bind fun _ => keeps_pure _
  exact Cache.lineBytes_invalidate h.dcache addr

theorem keeps_writeBackDirty [BlockDevice π] (victims : List Victim) :
    Keeps dcacheLine (writeBackDirty victims : MemoryStep π Nat) := by
  induction victims with
  | nil => exact keeps_pure _
  | cons v rest ih =>
    rw [writeBackDirty]
    split
    · exact (keeps_onPort _).bind fun _ => ih.bind fun _ => keeps_pure _
    · exact ih

theorem keeps_probeInvalidate [BlockDevice π] (addr : Word) :
    Keeps dcacheLine (probeInvalidate addr : MemoryStep π ProbeResult) := by
  unfold probeInvalidate
  refine (keeps_onCache .icache (by decide) _).bind fun _ =>
    (keeps_takeLine addr).bind fun victims => ?_
  exact (keeps_writeBackDirty victims).bind fun _ => keeps_pure _

end MemoryHierarchy

namespace Core

variable {π : Type}

theorem keeps_onMbox {α : Type} (x : Step (Mbox π) BusError α) :
    Keeps lock (onMbox x) := by
  apply keeps_onPart
  intro mbox c
  rfl

theorem keeps_onMemory {α : Type} (x : Step (MemoryHierarchy π) BusError α) :
    Keeps lock (onMemory x) := keeps_onMbox _

section counting

variable {γ : Type} {f : Core π → γ}

theorem countWhen_same (b : Bool) (g : Statistics → Statistics) (c : Core π)
    (h : ∀ c g, f (count c g) = f c := by intro c g; rfl) : f (countWhen b g c) = f c := by
  unfold countWhen
  split
  · exact h c g
  · rfl

theorem countFill_same (level : HitLevel) (c : Core π)
    (h : ∀ c g, f (count c g) = f c := by intro c g; rfl) : f (countFill level c) = f c := by
  unfold countFill
  split
  · exact h c _
  · exact countWhen_same _ _ c h
  · rfl
  · rfl

theorem countAccess_same (access : Access) (c : Core π)
    (h : ∀ c g, f (count c g) = f c := by intro c g; rfl) : f (countAccess access c) = f c := by
  unfold countAccess
  split
  · exact (h _ _).trans (h c _)
  · exact h c _
  · exact (countFill_same _ _ h).trans ((h _ _).trans (h c _))

theorem countFetch_same (hit : Bool) (level : HitLevel) (c : Core π)
    (h : ∀ c g, f (count c g) = f c := by intro c g; rfl) : f (countFetch hit level c) = f c := by
  unfold countFetch
  split
  · rfl
  · split
    · exact h c _
    · exact (countFill_same _ _ h).trans (h c _)

end counting

def lockAndMbox (c : Core π) : Lock × Mbox π := (c.lock, c.mbox)

theorem keeps_raiseData {α : Type} (fault : Fault) (opcode : Opcode) (write : Bool) :
    Keeps lockAndMbox (raiseData fault opcode write : CoreStep π α) := by
  unfold raiseData
  exact (keeps_modify).bind fun _ => keeps_throw _

theorem keeps_translate {ε : Type} (va : Word) (access : AccessKind) :
    Keeps lockAndMbox (translate va access : Step (Core π) ε _) := keeps_modifyGet

theorem keeps_translateData (opcode : Opcode) (va : Word) (access : AccessKind) :
    Keeps lockAndMbox (translateData opcode va access : CoreStep π Word) := by
  unfold translateData
  refine (keeps_translate va access).bind fun answer => ?_
  cases answer with
  | ok pa => exact keeps_pure _
  | error fault =>
    exact (keeps_modify fun _ => countWhen_same _ _ _).bind fun _ => keeps_raiseData _ _ _

theorem keeps_checkAlignment (opcode : Opcode) (va : Word) (width : Width) (write : Bool) :
    Keeps lockAndMbox (checkAlignment opcode va width write : CoreStep π Unit) := by
  unfold checkAlignment
  split
  · exact keeps_pure _
  · exact keeps_raiseData _ _ _

theorem keeps_translateFetch (pc : Word) :
    Keeps lockAndMbox (translateFetch pc : CoreStep π Word) := by
  unfold translateFetch
  refine keeps_get.bind fun c => ?_
  split
  · exact keeps_pure _
  · refine (keeps_translate pc .fetch).bind fun answer => ?_
    cases answer with
    | ok pa => exact keeps_pure _
    | error fault =>
      exact (keeps_modify fun _ => countWhen_same _ _ _).bind fun _ => keeps_throw _

theorem keeps_fetch [BlockDevice π] (pc : Word) :
    Keeps lock (fetch pc : CoreStep π Longword) := by
  unfold fetch
  refine ((keeps_translateFetch pc).map Prod.fst).bind fun pa => keeps_get.bind fun c => ?_
  refine ((keeps_onMemory _).mapError _).bind fun answer => ?_
  exact (keeps_modify fun _ => countFetch_same _ _ _).bind fun _ => keeps_pure _

theorem keeps_retireStore [BlockDevice π] (slot : Nat) :
    Keeps lock (retireStore slot : CoreStep π Unit) := by
  unfold retireStore
  refine ((keeps_onMbox _).mapError _).bind fun answer => ?_
  exact (keeps_modify).bind fun _ => keeps_modify fun _ => countAccess_same _ _

theorem keeps_evictBlock [BlockDevice π] (va : Word) :
    Keeps lock (evictBlock va : CoreStep π Unit) := by
  unfold evictBlock
  refine keeps_get.bind fun c => ?_
  split
  · exact keeps_pure _
  · exact ((keeps_onMemory _).mapError _).bind fun _ => keeps_pure _

theorem onMemory_ends {α : Type} {x : Step (MemoryHierarchy π) BusError α} {c : Core π}
    (hx : Keeps MemoryHierarchy.dcacheLine x) :
    (onMemory x c).Ends
      (fun _ t => t.lock = c.lock ∧ t.memory.dcacheLine = c.memory.dcacheLine)
      (fun _ t => t.lock = c.lock) True := by
  unfold onMemory onMbox Mbox.onMemory
  refine (ends_onPart (ends_onPart (hx c.memory))).mono ?_ ?_ id
  · rintro _ _ ⟨_, ⟨h, hline, rfl⟩, rfl⟩
    exact ⟨rfl, hline⟩
  · rintro _ _ ⟨_, ⟨h, -, rfl⟩, rfl⟩
    rfl

theorem locks_congr {c d : Core π} {pa : Word} (hlock : d.lock = c.lock)
    (hline : d.memory.dcacheLine = c.memory.dcacheLine) : d.locks pa = c.locks pa := by
  unfold locks
  rw [hlock, show d.memory.dcache.lineBytes = c.memory.dcache.lineBytes from hline]

theorem probeInvalidate_ends [BlockDevice π] (pa : Word) (c : Core π) :
    (probeInvalidate pa c).Ends
      (fun _ t => t.lock = if c.locks pa then c.lock.release else c.lock)
      (fun _ t => t.lock = c.lock) True := by
  unfold probeInvalidate
  refine ends_bind (onMemory_ends (MemoryHierarchy.keeps_probeInvalidate pa)) ?_
  rintro r t ⟨ht, hline⟩
  have hlock : (countProbe r t).lock = c.lock := (countWhen_same _ _ _).trans ht
  have hlocks : (countProbe r t).locks pa = c.locks pa :=
    locks_congr hlock ((congrArg _ (countWhen_same (f := memory) _ _ t)).trans hline)
  change (if (countProbe r t).locks pa = true then (countProbe r t).clearLock
    else countProbe r t).lock = _
  rw [hlocks]
  split
  · exact congrArg Lock.release hlock
  · exact hlock

theorem keeps_probeShare [BlockDevice π] (pa : Word) :
    Keeps lock (probeShare pa : Step (Core π) BusError ProbeResult) := by
  unfold probeShare
  refine (keeps_onMemory _).bind fun r => ?_
  exact (keeps_modify fun _ => countWhen_same _ _ _).bind fun _ => keeps_pure _

theorem lock_writeRegister (c : Core π) (r : InternalRegister) (value : Word) :
    (c.writeRegister r value).lock = c.lock := by
  cases r <;> rfl

theorem lock_writeIndex (c : Core π) (index : Nat) (value : Word) :
    (c.writeIndex index value).lock = c.lock := by
  unfold writeIndex
  split
  · exact c.lock_writeRegister _ _
  · rfl

end Core

end EV6
