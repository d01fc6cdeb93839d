import EV6.Cache.Basic
import EV6.Storage.Port
/-!
The memory hierarchy. Data goes through the data cache, which allocates on a miss; the lines it
gives up go to the board cache behind it, and those that the board cache gives up go to memory if
they are dirty. A line moves from the board cache to the data cache and is then no longer behind it.
The instruction cache is filled from the newest copy of a line.
-/

namespace EV6

inductive HitLevel where
  | firstLevel
  | bcache
  | memory
  | uncached
  deriving DecidableEq, Repr

namespace HitLevel

def name : HitLevel → String
  | firstLevel => "L1"
  | bcache => "Bcache"
  | memory => "Memory"
  | uncached => "Uncached"

end HitLevel

structure Access where
  level : HitLevel
  latency : Nat
  writebacks : Nat
  deriving DecidableEq, Repr

structure ProbeResult where
  hit : Bool
  dirty : Bool
  deriving DecidableEq, Repr

inductive CacheName where
  | icache
  | dcache
  | bcache
  deriving DecidableEq, Repr

structure MemoryHierarchy (π : Type) where
  icache : Cache
  dcache : Cache
  bcache : Cache
  port : π
  memoryLatency : Nat

abbrev MemoryStep (π : Type) := Step (MemoryHierarchy π) BusError

namespace MemoryHierarchy

variable {π : Type}

def ofConfig (c : Config) (port : π) : Except ConfigFailure (MemoryHierarchy π) := do
  let icache ← Cache.ofConfig "icache" c.cache.icache
  let dcache ← Cache.ofConfig "dcache" c.cache.dcache
  let bcache ← Cache.ofConfig "bcache" c.cache.bcache
  return { icache, dcache, bcache, port, memoryLatency := c.memory.memoryLatency }

def cache : CacheName → MemoryHierarchy π → Cache
  | .icache, h => h.icache
  | .dcache, h => h.dcache
  | .bcache, h => h.bcache

def withCache : CacheName → Cache → MemoryHierarchy π → MemoryHierarchy π
  | .icache, c, h => { h with icache := c }
  | .dcache, c, h => { h with dcache := c }
  | .bcache, c, h => { h with bcache := c }

def onCache {α : Type} (name : CacheName) (x : Step Cache BusError α) : MemoryStep π α :=
  x.onPart (cache name) (withCache name)

def onPort {α : Type} (x : Step π BusError α) : MemoryStep π α :=
  x.onPart port fun port h => { h with port }

def uncached (h : MemoryHierarchy π) : Access := ⟨.uncached, h.memoryLatency, 0⟩

def takeLine (addr : Word) : MemoryStep π (List Victim) := do
  let fromDcache ← onCache .dcache (modifyGet (·.invalidate addr))
  let fromBcache ← onCache .bcache (modifyGet (·.invalidate addr))
  return fromDcache.toList ++ fromBcache.toList

variable [BlockDevice π]

def writeBack (v : Victim) : MemoryStep π Unit := onPort (BlockDevice.writeBlock v.addr v.data)

def writeBackDirty : List Victim → MemoryStep π Nat
  | [] => return 0
  | v :: rest => do
    if v.dirty then
      writeBack v
      return (← writeBackDirty rest) + 1
    else writeBackDirty rest

def placeVictim (v : Victim) : MemoryStep π Nat := do
  if (← get).bcache.enabled then
    let evicted ← onCache .bcache (Cache.fill v.addr v.data v.dirty)
    writeBackDirty evicted.toList
  else writeBackDirty [v]

def loadLine (base : Word) : MemoryStep π (Option Victim × List Byte) := do
  let h ← get
  match ← onCache .bcache (modifyGet (·.invalidate base)) with
  | some line => return (some line, line.data)
  | none => return (none, ← onPort (BlockDevice.readBlock base h.dcache.lineBytes))

def installLine (base : Word) (data : List Byte) (dirty : Bool) : MemoryStep π Nat := do
  match ← onCache .dcache (Cache.fill base data dirty) with
  | some v => placeVictim v
  | none => return 0

def ensureLine (addr : Word) : MemoryStep π Access := do
  let h ← get
  if h.dcache.contains addr then return ⟨.firstLevel, h.dcache.latency, 0⟩
  else
    let base := Address.lineBase addr h.dcache.lineBytes
    let (moved, data) ← loadLine base
    let writebacks ← installLine base data (moved.any (·.dirty))
    if moved.isSome then return ⟨.bcache, h.bcache.latency, writebacks⟩
    else return ⟨.memory, h.memoryLatency, writebacks⟩

def readUncached (addr : Word) (length : Nat) : MemoryStep π (List Byte) := do
  let data ← onPort (BlockDevice.readBlock addr length)
  if data.length ≠ length then Step.check (.error (.blockLength data.length length))
  return data

def read (addr : Word) (length : Nat) : MemoryStep π (List Byte × Access) := do
  let h ← get
  if h.dcache.enabled then
    let access ← ensureLine addr
    let data ← onCache .dcache (Cache.read addr length)
    return (data.getD (List.replicate length 0), access)
  else return (← readUncached addr length, h.uncached)

def write (addr : Word) (data : List Byte) : MemoryStep π Access := do
  let h ← get
  if h.dcache.enabled then
    let access ← ensureLine addr
    let _ ← onCache .dcache (Cache.write addr data)
    return access
  else
    onPort (BlockDevice.writeBlock addr data)
    return h.uncached

def longwordOf (bytes : List Byte) : Longword := (Word.ofBytes bytes).setWidth 32

def fetchUncached (addr : Word) : MemoryStep π Longword := do
  let bytes ← onPort (BlockDevice.readBlock addr 4)
  if bytes.length < 4 then Step.check (.error (.outOfRange bytes.length bytes.length))
  return longwordOf bytes

def newestLine (base : Word) : MemoryStep π (List Byte × Access) := do
  let h ← get
  match h.dcache.lookup base, h.bcache.lookup base with
  | some line, _ => return (line.data, ⟨.firstLevel, h.dcache.latency, 0⟩)
  | none, some line => return (line.data, ⟨.bcache, h.bcache.latency, 0⟩)
  | none, none =>
    let block ← onPort (BlockDevice.readBlock base h.icache.lineBytes)
    return (block, ⟨.memory, h.memoryLatency, 0⟩)

def fetch (addr : Word) : MemoryStep π (Longword × Access) := do
  let h ← get
  let aligned := addr &&& ~~~3
  if h.icache.enabled then
    match ← onCache .icache (Cache.read aligned 4) with
    | some bytes => return (longwordOf bytes, ⟨.firstLevel, h.icache.latency, 0⟩)
    | none =>
      let base := Address.lineBase aligned h.icache.lineBytes
      let (block, access) ← newestLine base
      let _ ← onCache .icache (Cache.fill base block false)
      let bytes ← onCache .icache (Cache.read aligned 4)
      return (longwordOf (bytes.getD []), access)
  else return (← fetchUncached aligned, h.uncached)

def flush : MemoryStep π Nat := do
  let fromDcache ← onCache .dcache (modifyGet Cache.flush)
  let fromBcache ← onCache .bcache (modifyGet Cache.flush)
  let written ← writeBackDirty (fromDcache ++ fromBcache)
  onCache .icache (modify Cache.cleared)
  return written

def evict (addr : Word) : MemoryStep π Bool := do
  let victims ← takeLine addr
  let _ ← writeBackDirty victims
  return !victims.isEmpty

def probeInvalidate (addr : Word) : MemoryStep π ProbeResult := do
  let fromIcache ← onCache .icache (modifyGet (·.invalidate addr))
  let victims ← takeLine addr
  let written ← writeBackDirty victims
  return ⟨fromIcache.isSome || !victims.isEmpty, written != 0⟩

def probeShare (addr : Word) : MemoryStep π ProbeResult := do
  let h ← get
  let fromDcache ← onCache .dcache (modifyGet (·.share addr))
  let fromBcache ← onCache .bcache (modifyGet (·.share addr))
  let written ← writeBackDirty (fromDcache.toList ++ fromBcache.toList)
  return ⟨h.dcache.contains addr || h.bcache.contains addr, written != 0⟩

end MemoryHierarchy

end EV6
