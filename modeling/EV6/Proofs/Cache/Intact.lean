import EV6.Proofs.Cache.Calls
import EV6.Proofs.Fault.Upholds

namespace EV6

open Step Outcome

structure SizedDevice {π : Type} [BlockDevice π] (ok : π → Prop) : Prop where
  read_ends {p : π} (hp : ok p) (addr : Word) (length : Nat) :
    (BlockDevice.readBlock addr length p).Ends (fun data p' => ok p' ∧ data.length = length)
      (fun _ p' => ok p') False
  write_ends {p : π} (hp : ok p) (addr : Word) (data : List Byte) :
    (BlockDevice.writeBlock addr data p).Ends (fun _ p' => ok p') (fun _ p' => ok p') False

theorem FlatDevice.sized {π : Type} [BlockDevice π] {content : π → Memory} {ok : π → Prop}
    {answers : Word → Nat → Prop} (hd : FlatDevice content ok answers) : SizedDevice ok where
  read_ends hp addr length := by
    refine (hd.read_ends hp addr length).mono ?_ (fun _ _ h => h.1) id
    rintro data p' ⟨hp', rfl, -⟩
    exact ⟨hp', Memory.length_bytes _ _ _⟩
  write_ends hp addr data := (hd.write_ends hp addr data).mono (fun _ _ h => h.1) (fun _ _ h => h.1) id

def Config.latencies (c : Config) : List Nat :=
  [c.cache.icache.latency, c.cache.dcache.latency, c.cache.bcache.latency, c.memory.memoryLatency]

def Victim.Full (lineBytes : Nat) (v : Option Victim) : Prop := ∀ w ∈ v, w.data.length = lineBytes

namespace Cache

variable {cfg : CacheConfig} {c c' : Cache} {addr : Word} {data : List Byte} {B : Prop} {ε : Type}

structure Built (cfg : CacheConfig) (c : Cache) : Prop where
  sound : c.Sound
  lineBytes : c.lineBytes = cfg.lineBytes
  latency : c.latency = cfg.latency

theorem built_ofConfig {name : String} (h : ofConfig name cfg = .ok c) : c.Built cfg := by
  obtain ⟨hsound, hline, -, -⟩ := ofConfig_spec h
  refine ⟨hsound, hline, ?_⟩
  obtain ⟨_, -, h⟩ := ConfigFailure.bind_eq_ok h
  obtain ⟨_, -, h⟩ := ConfigFailure.ofBreach_then h
  cases h
  rfl

theorem Built.becomes {f : Nat → Option CacheLine} (h : c.Built cfg) (hb : c.Becomes c' f) :
    c'.Built cfg :=
  ⟨hb.sound, hb.lineBytes.trans h.lineBytes, hb.latency.trans h.latency⟩

theorem upholds_read (addr : Word) (length : Nat)
    (hB : cfg.lineBytes < addr.toNat % cfg.lineBytes + length → B) :
    Upholds (Built cfg) B (fun r => ∀ bytes ∈ r, bytes.length = length)
      (Cache.read addr length : Step Cache ε _) := by
  intro c hc
  refine (read_ends hc.sound addr length).mono ?_ (fun _ _ h => h.elim) ?_
  · rintro _ c' ⟨rfl, hb, hle⟩
    refine ⟨hc.becomes hb, fun bytes hbytes => ?_⟩
    obtain ⟨l, hl, rfl⟩ := Option.map_eq_some_iff.mp hbytes
    refine Block.length_slice ?_
    rw [hc.sound.full hl]
    exact hle (by rw [hl]; exact Option.some_ne_none l)
  · rw [hc.lineBytes]
    exact hB

theorem upholds_write (addr : Word) (data : List Byte)
    (hB : cfg.lineBytes < addr.toNat % cfg.lineBytes + data.length → B) :
    Upholds (Built cfg) B (fun _ => True) (Cache.write addr data : Step Cache ε _) := by
  intro c hc
  refine (write_ends hc.sound addr data).mono ?_ (fun _ _ h => h.elim) ?_
  · rintro _ c' ⟨-, hb, -⟩
    exact ⟨hc.becomes hb, trivial⟩
  · rw [hc.lineBytes]
    exact hB

theorem upholds_fill (hdata : data.length = cfg.lineBytes) (addr : Word) (dirty : Bool) :
    Upholds (Built cfg) B (Victim.Full cfg.lineBytes)
      (Cache.fill addr data dirty : Step Cache ε _) := by
  intro c hc
  by_cases he : c.enabled = true
  · have hlen : data.length = c.lineBytes := hdata.trans hc.lineBytes.symm
    rw [fill_apply he hlen]
    refine ⟨hc.becomes (filled_becomes hc.sound he addr hlen dirty), fun v hv => ?_⟩
    obtain ⟨m, l, -, -, -, -, hl, rfl⟩ := displaced_spec hc.sound hv
    exact (hc.sound.full hl).trans hc.lineBytes
  · simp only [Cache.fill, bind_apply, get_apply, he]
    exact ⟨hc, fun v hv => by cases hv⟩

theorem upholds_invalidate (addr : Word) :
    Upholds (Built cfg) B (Victim.Full cfg.lineBytes)
      (modifyGet (·.invalidate addr) : Step Cache ε _) := by
  refine upholds_modifyGet fun c hc => ⟨hc.becomes (invalidate_snd hc.sound addr), fun v hv => ?_⟩
  rw [invalidate_fst hc.sound] at hv
  obtain ⟨l, hl, rfl⟩ := Option.map_eq_some_iff.mp hv
  exact (hc.sound.full hl).trans hc.lineBytes

theorem upholds_share (addr : Word) :
    Upholds (Built cfg) B (fun _ => True) (modifyGet (·.share addr) : Step Cache ε _) :=
  upholds_modifyGet fun _ hc => ⟨hc.becomes (share_snd hc.sound addr), trivial⟩

theorem upholds_flush :
    Upholds (Built cfg) B (fun _ => True) (modifyGet Cache.flush : Step Cache ε _) :=
  upholds_modifyGet fun _ hc => ⟨hc.becomes (cleared_becomes hc.sound), trivial⟩

end Cache

def CacheLevels.of (levels : CacheLevels) : CacheName → CacheConfig
  | .icache => levels.icache
  | .dcache => levels.dcache
  | .bcache => levels.bcache

namespace MemoryHierarchy

variable {π : Type} {ok : π → Prop} {config : Config} {B : Prop}

structure Intact (ok : π → Prop) (config : Config) (h : MemoryHierarchy π) : Prop where
  port : ok h.port
  icache : h.icache.Built config.cache.icache
  dcache : h.dcache.Built config.cache.dcache
  bcache : h.bcache.Built config.cache.bcache
  memoryLatency : h.memoryLatency = config.memory.memoryLatency

theorem intact_ofConfig {port : π} {h : MemoryHierarchy π} (hport : ok port)
    (hh : ofConfig config port = .ok h) : h.Intact ok config := by
  obtain ⟨icache, hicache, hh⟩ := ConfigFailure.bind_eq_ok hh
  obtain ⟨dcache, hdcache, hh⟩ := ConfigFailure.bind_eq_ok hh
  obtain ⟨bcache, hbcache, hh⟩ := ConfigFailure.bind_eq_ok hh
  cases hh
  exact ⟨hport, Cache.built_ofConfig hicache, Cache.built_ofConfig hdcache,
    Cache.built_ofConfig hbcache, rfl⟩

section Parts

variable {α : Type} {P : α → Prop} {x : Step Cache BusError α}

theorem Intact.cache {h : MemoryHierarchy π} (hh : h.Intact ok config) (name : CacheName) :
    (h.cache name).Built (config.cache.of name) := by
  cases name with
  | icache => exact hh.icache
  | dcache => exact hh.dcache
  | bcache => exact hh.bcache

theorem Intact.withCache {h : MemoryHierarchy π} (hh : h.Intact ok config) {name : CacheName}
    {c : Cache} (hc : c.Built (config.cache.of name)) : (h.withCache name c).Intact ok config := by
  cases name with
  | icache => exact { hh with icache := hc }
  | dcache => exact { hh with dcache := hc }
  | bcache => exact { hh with bcache := hc }

theorem upholds_onCache (name : CacheName)
    (hx : Upholds (Cache.Built (config.cache.of name)) B P x) :
    Upholds (Intact ok config) B P (onCache name x : MemoryStep π α) :=
  hx.onPart (fun _ hh => hh.cache name) fun _ _ hh hc => hh.withCache hc

end Parts

theorem upholds_takeLine (addr : Word) :
    Upholds (Intact ok config) B (fun _ => True) (takeLine addr : MemoryStep π _) :=
  (upholds_onCache .dcache (Cache.upholds_invalidate addr)).bind fun _ _ =>
    (upholds_onCache .bcache (Cache.upholds_invalidate addr)).bind fun _ _ => upholds_pure trivial

variable [BlockDevice π] (hd : SizedDevice ok)

include hd

theorem upholds_readBlock (addr : Word) (length : Nat) :
    Upholds (Intact ok config) B (fun data => data.length = length)
      (onPort (BlockDevice.readBlock addr length) : MemoryStep π _) := by
  refine Upholds.onPart (J := ok) (fun _ hh => hh.port) (fun _ _ hh hp => { hh with port := hp }) ?_
  exact fun p hp => (hd.read_ends hp addr length).mono (fun _ _ h => h) (fun _ _ h => h) False.elim

theorem upholds_writeBlock (addr : Word) (data : List Byte) :
    Upholds (Intact ok config) B (fun _ => True)
      (onPort (BlockDevice.writeBlock addr data) : MemoryStep π _) := by
  refine Upholds.onPart (J := ok) (fun _ hh => hh.port) (fun _ _ hh hp => { hh with port := hp }) ?_
  exact fun p hp => (hd.write_ends hp addr data).mono (fun _ _ h => ⟨h, trivial⟩) (fun _ _ h => h)
    False.elim

theorem upholds_writeBackDirty (vs : List Victim) :
    Upholds (Intact ok config) B (fun _ => True) (writeBackDirty vs : MemoryStep π _) := by
  induction vs with
  | nil => exact upholds_pure trivial
  | cons v rest ih =>
    rw [writeBackDirty]
    split
    · exact (upholds_writeBlock hd v.addr v.data).bind fun _ _ => ih.bind fun _ _ =>
        upholds_pure trivial
    · exact ih

variable (hv : config.Valid)

include hv

theorem upholds_placeVictim {v : Victim} (hlen : v.data.length = config.cache.dcache.lineBytes) :
    Upholds (Intact ok config) B (fun _ => True) (placeVictim v : MemoryStep π _) := by
  refine upholds_get.bind fun h _ => ?_
  split
  · have hlen := hlen.trans hv.bcacheLine.symm
    exact (upholds_onCache .bcache (Cache.upholds_fill hlen v.addr v.dirty)).bind fun _ _ =>
      upholds_writeBackDirty hd _
  · exact upholds_writeBackDirty hd _

theorem upholds_installLine {data : List Byte} (hlen : data.length = config.cache.dcache.lineBytes)
    (base : Word) (dirty : Bool) :
    Upholds (Intact ok config) B (fun _ => True) (installLine base data dirty : MemoryStep π _) := by
  refine (upholds_onCache .dcache (Cache.upholds_fill hlen base dirty)).bind fun v hfull => ?_
  cases v with
  | none => exact upholds_pure trivial
  | some v => exact upholds_placeVictim hd hv (hfull v rfl)

theorem upholds_loadLine (base : Word) :
    Upholds (Intact ok config) B (fun r => r.2.length = config.cache.dcache.lineBytes)
      (loadLine base : MemoryStep π _) := by
  refine upholds_get.bind fun h hh => ?_
  refine (upholds_onCache .bcache (Cache.upholds_invalidate base)).bind fun line hfull => ?_
  cases line with
  | some line => exact upholds_pure ((hfull line rfl).trans hv.bcacheLine)
  | none =>
    refine (upholds_readBlock hd base _).bind fun data hlen => upholds_pure ?_
    exact hlen.trans hh.dcache.lineBytes

theorem upholds_ensureLine (addr : Word) :
    Upholds (Intact ok config) B (fun access => access.latency ∈ config.latencies)
      (ensureLine addr : MemoryStep π _) := by
  refine upholds_get.bind fun h hh => ?_
  split
  · exact upholds_pure (by simp [Config.latencies, hh.dcache.latency])
  · refine (upholds_loadLine hd hv _).bind fun r hlen => ?_
    refine (upholds_installLine hd hv hlen _ _).bind fun written _ => ?_
    split
    · exact upholds_pure (by simp [Config.latencies, hh.bcache.latency])
    · exact upholds_pure (by simp [Config.latencies, hh.memoryLatency])

omit hv in
theorem upholds_readUncached (addr : Word) (length : Nat) :
    Upholds (Intact ok config) B (fun data => data.length = length)
      (readUncached addr length : MemoryStep π _) := by
  refine (upholds_readBlock hd addr length).bind fun data hlen => ?_
  rw [if_neg (by simpa using hlen)]
  exact upholds_pure hlen

theorem upholds_read (addr : Word) (length : Nat)
    (hB : config.cache.dcache.lineBytes < addr.toNat % config.cache.dcache.lineBytes + length → B) :
    Upholds (Intact ok config) B (fun r => r.1.length = length ∧ r.2.latency ∈ config.latencies)
      (MemoryHierarchy.read addr length : MemoryStep π _) := by
  refine upholds_get.bind fun h hh => ?_
  split
  · refine (upholds_ensureLine hd hv addr).bind fun access hlatency => ?_
    refine (upholds_onCache .dcache (Cache.upholds_read addr length hB)).bind fun data hlen => ?_
    refine upholds_pure ⟨?_, hlatency⟩
    cases data with
    | none => exact List.length_replicate
    | some bytes => exact hlen bytes rfl
  · refine (upholds_readUncached hd addr length).bind fun data hlen => upholds_pure ⟨hlen, ?_⟩
    simp [Config.latencies, uncached, hh.memoryLatency]

theorem upholds_write (addr : Word) (data : List Byte)
    (hB : config.cache.dcache.lineBytes <
      addr.toNat % config.cache.dcache.lineBytes + data.length → B) :
    Upholds (Intact ok config) B (fun _ => True) (MemoryHierarchy.write addr data : MemoryStep π _) := by
  refine upholds_get.bind fun h hh => ?_
  split
  · refine (upholds_ensureLine hd hv addr).bind fun access _ => ?_
    exact (upholds_onCache .dcache (Cache.upholds_write addr data hB)).bind
      fun _ _ => upholds_pure trivial
  · exact (upholds_writeBlock hd addr data).bind fun _ _ => upholds_pure trivial

omit hv in
theorem upholds_fetchUncached (addr : Word) :
    Upholds (Intact ok config) B (fun _ => True) (fetchUncached addr : MemoryStep π _) := by
  refine (upholds_readBlock hd addr 4).bind fun data hlen => ?_
  rw [if_neg (by omega)]
  exact upholds_pure trivial

theorem upholds_newestLine (base : Word) :
    Upholds (Intact ok config) B (fun r => r.1.length = config.cache.icache.lineBytes)
      (newestLine base : MemoryStep π _) := by
  refine upholds_get.bind fun h hh => ?_
  have hdcache {l : CacheLine} (hl : h.dcache.lookup base = some l) :
      l.data.length = config.cache.icache.lineBytes := by
    rw [Cache.lookup_eq_line hh.dcache.sound] at hl
    rw [hh.dcache.sound.full hl, hh.dcache.lineBytes, hv.icacheLine]
  have hbcache {l : CacheLine} (hl : h.bcache.lookup base = some l) :
      l.data.length = config.cache.icache.lineBytes := by
    rw [Cache.lookup_eq_line hh.bcache.sound] at hl
    rw [hh.bcache.sound.full hl, hh.bcache.lineBytes, hv.icacheLine, hv.bcacheLine]
  split
  · exact upholds_pure (hdcache ‹_›)
  · exact upholds_pure (hbcache ‹_›)
  · refine (upholds_readBlock hd base _).bind fun block hlen => upholds_pure ?_
    exact hlen.trans hh.icache.lineBytes

theorem upholds_fetch (addr : Word) :
    Upholds (Intact ok config) B (fun _ => True) (MemoryHierarchy.fetch addr : MemoryStep π _) := by
  have hline : LineSize config.cache.icache.lineBytes := hv.icache.lineSize
  have hwithin := hline.within (Nat.dvd_trans (by decide) hline.eight_dvd) (fetchAddr_mod addr)
  have hread : Upholds (Intact ok config) B (fun r => ∀ bytes ∈ r, bytes.length = 4)
      (onCache .icache (Cache.read (addr &&& ~~~3) 4) : MemoryStep π _) :=
    upholds_onCache .icache (Cache.upholds_read _ 4 fun h => absurd hwithin (Nat.not_le.mpr h))
  refine upholds_get.bind fun h hh => ?_
  dsimp only
  split
  · refine hread.bind fun bytes _ => ?_
    cases bytes with
    | some bytes => exact upholds_pure trivial
    | none =>
      refine (upholds_newestLine hd hv _).bind fun r hlen => ?_
      refine (upholds_onCache .icache (Cache.upholds_fill hlen _ _)).bind fun _ _ => ?_
      exact hread.bind fun _ _ => upholds_pure trivial
  · exact (upholds_fetchUncached hd _).bind fun _ _ => upholds_pure trivial

omit hv

theorem upholds_memoryFlush :
    Upholds (Intact ok config) B (fun _ => True) (MemoryHierarchy.flush : MemoryStep π _) :=
  (upholds_onCache .dcache Cache.upholds_flush).bind fun _ _ =>
    (upholds_onCache .bcache Cache.upholds_flush).bind fun _ _ =>
    (upholds_writeBackDirty hd _).bind fun _ _ =>
    (upholds_onCache .icache (upholds_modify fun _ hc =>
      hc.becomes (Cache.cleared_becomes hc.sound))).bind fun _ _ => upholds_pure trivial

theorem upholds_evict (addr : Word) :
    Upholds (Intact ok config) B (fun _ => True) (MemoryHierarchy.evict addr : MemoryStep π _) :=
  (upholds_takeLine addr).bind fun _ _ => (upholds_writeBackDirty hd _).bind fun _ _ =>
    upholds_pure trivial

theorem upholds_probeInvalidate (addr : Word) :
    Upholds (Intact ok config) B (fun _ => True)
      (MemoryHierarchy.probeInvalidate addr : MemoryStep π _) :=
  (upholds_onCache .icache (Cache.upholds_invalidate addr)).bind fun _ _ =>
    (upholds_takeLine addr).bind fun _ _ => (upholds_writeBackDirty hd _).bind fun _ _ =>
    upholds_pure trivial

theorem upholds_probeShare (addr : Word) :
    Upholds (Intact ok config) B (fun _ => True) (MemoryHierarchy.probeShare addr : MemoryStep π _) :=
  upholds_get.bind fun _ _ => (upholds_onCache .dcache (Cache.upholds_share addr)).bind fun _ _ =>
    (upholds_onCache .bcache (Cache.upholds_share addr)).bind fun _ _ =>
    (upholds_writeBackDirty hd _).bind fun _ _ => upholds_pure trivial

include hv

theorem upholds_call (c : Call) :
    Upholds (Intact ok config) True (fun _ => True) (c.run : MemoryStep π _) := by
  cases c with
  | read addr length =>
    exact (upholds_read hd hv addr length fun _ => trivial).bind fun _ _ => upholds_pure trivial
  | write addr data =>
    exact (upholds_write hd hv addr data fun _ => trivial).bind fun _ _ => upholds_pure trivial
  | fetch addr => exact (upholds_fetch hd hv addr).bind fun _ _ => upholds_pure trivial
  | flush => exact (upholds_memoryFlush hd).bind fun _ _ => upholds_pure trivial
  | evict addr => exact (upholds_evict hd addr).bind fun _ _ => upholds_pure trivial
  | probeInvalidate addr => exact (upholds_probeInvalidate hd addr).bind fun _ _ => upholds_pure trivial
  | probeShare addr => exact (upholds_probeShare hd addr).bind fun _ _ => upholds_pure trivial

end MemoryHierarchy

end EV6
