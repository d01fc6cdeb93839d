import EV6.Mbox.Basic
import EV6.Proofs.Cache.Calls
import EV6.Proofs.Config.Valid
import EV6.Proofs.Fault.Upholds

namespace EV6

open Step

structure EnabledCaches where
  icache : Bool
  dcache : Bool
  bcache : Bool
  deriving DecidableEq, Repr

def EnabledCaches.of (k : EnabledCaches) : CacheName → Bool
  | .icache => k.icache
  | .dcache => k.dcache
  | .bcache => k.bcache

def Config.enabledCaches (config : Config) : EnabledCaches :=
  ⟨config.cache.icache.enabled, config.cache.dcache.enabled, config.cache.bcache.enabled⟩

namespace HitLevel

def ServesFetch (k : EnabledCaches) (level : HitLevel) : Prop :=
  level = .bcache → k.bcache = true

structure ServesData (k : EnabledCaches) (level : HitLevel) : Prop where
  uncached : level = .uncached ↔ k.dcache = false
  bcache : level = .bcache → k.bcache = true

end HitLevel

namespace Cache

variable {ε : Type} {c : Cache} {b : Bool}

theorem enabled_ofConfig {name : String} {config : CacheConfig} (h : ofConfig name config = .ok c) :
    c.enabled = config.enabled := by
  obtain ⟨_, _, h⟩ := ConfigFailure.bind_eq_ok h
  obtain ⟨_, _, h⟩ := ConfigFailure.ofBreach_then h
  cases h
  rfl

def EnabledIs (b : Bool) (c : Cache) : Prop := c.enabled = b

theorem enabled_of_find {addr : Word} {x : Nat × CacheLine} (h : c.find addr = some x) :
    c.enabled = true := by
  unfold find wayOf at h
  split at h
  · assumption
  · cases h

theorem Steady.upholds {α : Type} {x : Step Cache ε α} (hx : Steady x) :
    Upholds (EnabledIs b) True (fun _ => True) x := fun c hc =>
  (hx c).mono (fun _ _ h => ⟨h.trans hc, trivial⟩) (fun _ _ h => h.elim) id

theorem enabled_invalidate (addr : Word) :
    Upholds (EnabledIs b) True (fun v => v.isSome = true → b = true)
      (modifyGet (·.invalidate addr) : Step Cache ε _) := by
  refine upholds_modifyGet fun c hc => ?_
  unfold Cache.invalidate
  split
  · exact ⟨hc, nofun⟩
  · rename_i hfound
    exact ⟨hc, fun _ => hc.symm.trans (enabled_of_find hfound)⟩

end Cache

namespace MemoryHierarchy

variable {π α : Type} {k : EnabledCaches} {P : α → Prop}

def enabled (h : MemoryHierarchy π) : EnabledCaches :=
  ⟨h.icache.enabled, h.dcache.enabled, h.bcache.enabled⟩

theorem enabled_ofConfig {config : Config} {port : π} {h : MemoryHierarchy π}
    (hc : ofConfig config port = .ok h) : h.enabled = config.enabledCaches := by
  obtain ⟨icache, hicache, hc⟩ := ConfigFailure.bind_eq_ok hc
  obtain ⟨dcache, hdcache, hc⟩ := ConfigFailure.bind_eq_ok hc
  obtain ⟨bcache, hbcache, hc⟩ := ConfigFailure.bind_eq_ok hc
  cases hc
  simp only [enabled, Config.enabledCaches, Cache.enabled_ofConfig hicache,
    Cache.enabled_ofConfig hdcache, Cache.enabled_ofConfig hbcache]

def EnabledAre (k : EnabledCaches) (h : MemoryHierarchy π) : Prop := h.enabled = k

theorem EnabledAre.cache {h : MemoryHierarchy π} (hh : h.EnabledAre k) (name : CacheName) :
    (h.cache name).EnabledIs (k.of name) := by
  subst hh
  cases name <;> rfl

theorem EnabledAre.withCache {h : MemoryHierarchy π} (hh : h.EnabledAre k) {name : CacheName}
    {c : Cache} (hc : c.EnabledIs (k.of name)) : (h.withCache name c).EnabledAre k := by
  subst hh
  cases name with
  | icache => exact congrArg (EnabledCaches.mk · h.dcache.enabled h.bcache.enabled) hc
  | dcache => exact congrArg (EnabledCaches.mk h.icache.enabled · h.bcache.enabled) hc
  | bcache => exact congrArg (EnabledCaches.mk h.icache.enabled h.dcache.enabled ·) hc

theorem enabled_onCache (name : CacheName) {x : Step Cache BusError α}
    (hx : Upholds (Cache.EnabledIs (k.of name)) True P x) :
    Upholds (EnabledAre k) True P (onCache name x : MemoryStep π α) :=
  hx.onPart (fun _ hh => hh.cache name) fun _ _ hh hc => hh.withCache hc

theorem enabled_onPort (x : Step π BusError α) :
    Upholds (EnabledAre k) True (fun _ => True) (onPort x) :=
  (upholds_any x).onPart (fun _ _ => trivial) fun _ _ hh _ => hh

theorem enabled_takeLine (addr : Word) :
    Upholds (EnabledAre k) True (fun _ => True) (takeLine addr : MemoryStep π _) :=
  (enabled_onCache .dcache (Cache.enabled_invalidate addr)).bind fun _ _ =>
    (enabled_onCache .bcache (Cache.enabled_invalidate addr)).bind fun _ _ => upholds_pure trivial

variable [BlockDevice π]

theorem enabled_writeBackDirty (victims : List Victim) :
    Upholds (EnabledAre k) True (fun _ => True) (writeBackDirty victims : MemoryStep π _) := by
  induction victims with
  | nil => exact upholds_pure trivial
  | cons v rest ih =>
    rw [writeBackDirty]
    split
    · exact (enabled_onPort _).bind fun _ _ => ih.bind fun _ _ => upholds_pure trivial
    · exact ih

theorem enabled_installLine (base : Word) (data : List Byte) (dirty : Bool) :
    Upholds (EnabledAre k) True (fun _ => True) (installLine base data dirty : MemoryStep π _) := by
  refine (enabled_onCache .dcache (Cache.steady_fill base data dirty).upholds).bind fun v _ => ?_
  cases v with
  | none => exact upholds_pure trivial
  | some v =>
    refine upholds_get.bind fun h _ => ?_
    split
    · exact (enabled_onCache .bcache (Cache.steady_fill _ _ _).upholds).bind fun _ _ =>
        enabled_writeBackDirty _
    · exact enabled_writeBackDirty _

theorem enabled_loadLine (base : Word) :
    Upholds (EnabledAre k) True (fun r => r.1.isSome = true → k.bcache = true)
      (loadLine base : MemoryStep π _) := by
  refine upholds_get.bind fun h _ => ?_
  refine (enabled_onCache .bcache (Cache.enabled_invalidate base)).bind fun line hline => ?_
  cases line with
  | some line => exact upholds_pure hline
  | none => exact (enabled_onPort _).bind fun _ _ => upholds_pure nofun

theorem enabled_ensureLine (addr : Word) (hk : k.dcache = true) :
    Upholds (EnabledAre k) True (fun access => access.level.ServesData k)
      (ensureLine addr : MemoryStep π _) := by
  have hdcache : ¬k.dcache = false := by simp [hk]
  refine upholds_get.bind fun h _ => ?_
  split
  · exact upholds_pure ⟨iff_of_false nofun hdcache, nofun⟩
  · refine (enabled_loadLine _).bind fun r hmoved => ?_
    refine (enabled_installLine _ _ _).bind fun written _ => ?_
    split
    · rename_i hsome
      exact upholds_pure ⟨iff_of_false nofun hdcache, fun _ => hmoved hsome⟩
    · exact upholds_pure ⟨iff_of_false nofun hdcache, nofun⟩

theorem servesData_uncached (hk : k.dcache = false) : HitLevel.uncached.ServesData k :=
  ⟨iff_of_true rfl hk, nofun⟩

theorem enabled_readUncached (addr : Word) (length : Nat) :
    Upholds (EnabledAre k) True (fun _ => True) (readUncached addr length : MemoryStep π _) :=
  (enabled_onPort _).bind fun _ _ => upholds_unless _ (upholds_pure trivial)

theorem enabled_fetchUncached (addr : Word) :
    Upholds (EnabledAre k) True (fun _ => True) (fetchUncached addr : MemoryStep π _) :=
  (enabled_onPort _).bind fun _ _ => upholds_unless _ (upholds_pure trivial)

omit [BlockDevice π] in
theorem enabled_byDcache {x : MemoryStep π α} {y : MemoryHierarchy π → MemoryStep π α}
    (hx : k.dcache = true → Upholds (EnabledAre k) True P x)
    (hy : HitLevel.uncached.ServesData k → ∀ h, Upholds (EnabledAre k) True P (y h)) :
    Upholds (EnabledAre k) True P (do let h ← get; if h.dcache.enabled then x else y h) := by
  refine upholds_get.bind fun h hh => ?_
  have hdcache : h.dcache.enabled = k.dcache := hh.cache .dcache
  split
  · rename_i he
    exact hx (hdcache.symm.trans he)
  · rename_i he
    exact hy (servesData_uncached (hdcache.symm.trans (Bool.eq_false_iff.mpr he))) h

theorem enabled_read (addr : Word) (length : Nat) :
    Upholds (EnabledAre k) True (fun r => r.2.level.ServesData k)
      (MemoryHierarchy.read addr length : MemoryStep π _) := by
  refine enabled_byDcache (fun hk => ?_) fun hlevel _ => ?_
  · refine (enabled_ensureLine addr hk).bind fun access hlevel => ?_
    exact (enabled_onCache .dcache (Cache.steady_read addr length).upholds).bind fun _ _ =>
      upholds_pure hlevel
  · exact (enabled_readUncached addr length).bind fun _ _ => upholds_pure hlevel

theorem enabled_write (addr : Word) (data : List Byte) :
    Upholds (EnabledAre k) True (fun access => access.level.ServesData k)
      (MemoryHierarchy.write addr data : MemoryStep π _) := by
  refine enabled_byDcache (fun hk => ?_) fun hlevel _ => ?_
  · refine (enabled_ensureLine addr hk).bind fun access hlevel => ?_
    exact (enabled_onCache .dcache (Cache.steady_write addr data).upholds).bind fun _ _ =>
      upholds_pure hlevel
  · exact (enabled_onPort _).bind fun _ _ => upholds_pure hlevel

theorem enabled_newestLine (base : Word) :
    Upholds (EnabledAre k) True (fun r => r.2.level.ServesFetch k)
      (newestLine base : MemoryStep π _) := by
  refine upholds_get.bind fun h hh => ?_
  split
  · exact upholds_pure nofun
  · rename_i hlookup
    obtain ⟨found, hfound, -⟩ := Option.map_eq_some_iff.mp hlookup
    have hbcache : h.bcache.enabled = k.bcache := hh.cache .bcache
    exact upholds_pure fun _ => hbcache.symm.trans (Cache.enabled_of_find hfound)
  · exact (enabled_onPort _).bind fun _ _ => upholds_pure nofun

theorem enabled_fetch (addr : Word) :
    Upholds (EnabledAre k) True (fun r => r.2.level.ServesFetch k)
      (MemoryHierarchy.fetch addr : MemoryStep π _) := by
  refine upholds_get.bind fun h _ => ?_
  dsimp only
  split
  · refine (enabled_onCache .icache (Cache.steady_read _ 4).upholds).bind fun bytes _ => ?_
    cases bytes with
    | some bytes => exact upholds_pure nofun
    | none =>
      refine (enabled_newestLine _).bind fun r hlevel => ?_
      refine (enabled_onCache .icache (Cache.steady_fill _ _ _).upholds).bind fun _ _ => ?_
      exact (enabled_onCache .icache (Cache.steady_read _ 4).upholds).bind fun _ _ =>
        upholds_pure hlevel
  · exact (enabled_fetchUncached _).bind fun _ _ => upholds_pure nofun

theorem enabled_flush :
    Upholds (EnabledAre k) True (fun _ => True) (MemoryHierarchy.flush : MemoryStep π _) :=
  (enabled_onCache .dcache Cache.steady_flush.upholds).bind fun _ _ =>
    (enabled_onCache .bcache Cache.steady_flush.upholds).bind fun _ _ =>
    (enabled_writeBackDirty _).bind fun _ _ =>
    (enabled_onCache .icache Cache.steady_cleared.upholds).bind fun _ _ => upholds_pure trivial

theorem enabled_evict (addr : Word) :
    Upholds (EnabledAre k) True (fun _ => True) (MemoryHierarchy.evict addr : MemoryStep π _) :=
  (enabled_takeLine addr).bind fun _ _ => (enabled_writeBackDirty _).bind fun _ _ =>
    upholds_pure trivial

theorem enabled_probeInvalidate (addr : Word) :
    Upholds (EnabledAre k) True (fun _ => True)
      (MemoryHierarchy.probeInvalidate addr : MemoryStep π _) :=
  (enabled_onCache .icache (Cache.enabled_invalidate addr)).bind fun _ _ =>
    (enabled_takeLine addr).bind fun _ _ => (enabled_writeBackDirty _).bind fun _ _ =>
    upholds_pure trivial

theorem enabled_probeShare (addr : Word) :
    Upholds (EnabledAre k) True (fun _ => True) (MemoryHierarchy.probeShare addr : MemoryStep π _) :=
  upholds_get.bind fun _ _ =>
    (enabled_onCache .dcache (Cache.steady_share addr).upholds).bind fun _ _ =>
    (enabled_onCache .bcache (Cache.steady_share addr).upholds).bind fun _ _ =>
    (enabled_writeBackDirty _).bind fun _ _ => upholds_pure trivial

theorem enabled_call (c : Call) :
    Upholds (EnabledAre k) True (fun _ => True) (c.run : MemoryStep π _) := by
  cases c with
  | read addr length => exact (enabled_read addr length).bind fun _ _ => upholds_pure trivial
  | write addr data => exact (enabled_write addr data).bind fun _ _ => upholds_pure trivial
  | fetch addr => exact (enabled_fetch addr).bind fun _ _ => upholds_pure trivial
  | flush => exact enabled_flush.bind fun _ _ => upholds_pure trivial
  | evict addr => exact (enabled_evict addr).bind fun _ _ => upholds_pure trivial
  | probeInvalidate addr => exact (enabled_probeInvalidate addr).bind fun _ _ => upholds_pure trivial
  | probeShare addr => exact (enabled_probeShare addr).bind fun _ _ => upholds_pure trivial

end MemoryHierarchy

namespace Mbox

variable {π ε : Type} {k : EnabledCaches}

def EnabledAre (k : EnabledCaches) (m : Mbox π) : Prop := m.memory.EnabledAre k

theorem enabled_onMemory {α : Type} {P : α → Prop} {x : Step (MemoryHierarchy π) ε α}
    (hx : Upholds (MemoryHierarchy.EnabledAre k) True P x) :
    Upholds (EnabledAre k) True P (onMemory x) :=
  hx.onPart (fun _ hm => hm) fun _ _ _ hh => hh

theorem enabled_releaseLoad (slot : Nat) :
    Upholds (EnabledAre k) True (fun _ => True) (releaseLoad slot : Step (Mbox π) ε _) :=
  upholds_get.bind fun _ hm => (upholds_check_any _).bind fun _ _ => upholds_set hm

theorem enabled_queueStore (i : Instruction) (va pa : Word) (width : Width) (data : Word) :
    Upholds (EnabledAre k) True (fun _ => True)
      (queueStore i va pa width data : Step (Mbox π) ε _) :=
  upholds_get.bind fun _ hm => (upholds_check_any _).bind fun _ _ =>
    Upholds.bind (upholds_set hm) fun _ _ => upholds_pure trivial

theorem enabled_answerLoad (i : Instruction) (slot : Nat) {access : Access}
    (hlevel : access.level.ServesData k) (f : StoreQueue.Forwarded) :
    Upholds (EnabledAre k) True (fun r => r.2.access.level.ServesData k)
      (answerLoad i slot access f : Step (Mbox π) ε _) := by
  unfold answerLoad
  dsimp only
  split
  · exact (enabled_releaseLoad slot).bind fun _ _ => upholds_pure hlevel
  · exact upholds_get.bind fun _ hm => (upholds_check_any _).bind fun _ _ =>
      Upholds.bind (upholds_set hm) fun _ _ => upholds_pure hlevel

variable [BlockDevice π]

theorem enabled_issueLoad (i : Instruction) (va pa : Word) (width : Width) :
    Upholds (EnabledAre k) True (fun r => r.2.access.level.ServesData k)
      (issueLoad i va pa width : Step (Mbox π) BusError _) := by
  unfold issueLoad
  refine (?_ : Upholds (EnabledAre k) True (fun _ => True) (allocateLoad _)).bind fun slot _ => ?_
  · exact upholds_get.bind fun _ hm => (upholds_check_any _).bind fun _ _ =>
      Upholds.bind (upholds_set hm) fun _ _ => upholds_pure trivial
  refine Upholds.bind (P := fun r => r.2.level.ServesData k) ?_ fun r hlevel => ?_
  · refine (enabled_onMemory (MemoryHierarchy.enabled_read pa width.bytes)).tryCatch fun e => ?_
    exact (enabled_releaseLoad slot).bind fun _ _ => upholds_throw e
  · exact upholds_get.bind fun _ _ => (upholds_check_any _).bind fun f _ =>
      enabled_answerLoad i slot hlevel f

theorem enabled_retireStore (slot : Nat) :
    Upholds (EnabledAre k) True (fun r => r.2.level.ServesData k)
      (retireStore slot : Step (Mbox π) BusError _) :=
  upholds_get.bind fun _ hm => (upholds_check_any _).bind fun _ _ =>
    Upholds.bind (upholds_set hm) fun _ _ =>
    (enabled_onMemory (MemoryHierarchy.enabled_write _ _)).bind fun _ hlevel => upholds_pure hlevel

end Mbox

end EV6
