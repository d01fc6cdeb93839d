
namespace EV6

inductive ReplacementPolicy where
  | roundRobin
  | leastRecent
  deriving DecidableEq, Repr

namespace ReplacementPolicy

/-- The accepted spellings; the first of each policy is its name. -/
def spellings : List (String × ReplacementPolicy) :=
  [("RoundRobin", .roundRobin), ("FIFO", .roundRobin), ("Fifo", .roundRobin),
    ("Lru", .leastRecent), ("LRU", .leastRecent)]

def ofName? (s : String) : Option ReplacementPolicy := spellings.lookup s

def name : ReplacementPolicy → String
  | roundRobin => "RoundRobin"
  | leastRecent => "Lru"

end ReplacementPolicy

structure GeneralConfig where
  bigEndian : Bool
  implver : Nat
  amask : Nat
  predictorMode : Nat
  deriving DecidableEq, Repr

structure MemoryConfig where
  ramBase : Nat
  ramSize : Nat
  itbSize : Nat
  dtbSize : Nat
  superpageEnable : Nat
  memoryLatency : Nat
  deriving DecidableEq, Repr

structure CacheConfig where
  enabled : Bool
  sizeBytes : Nat
  lineBytes : Nat
  ways : Nat
  policy : ReplacementPolicy
  latency : Nat
  deriving DecidableEq, Repr

structure CacheLevels where
  icache : CacheConfig
  dcache : CacheConfig
  bcache : CacheConfig
  deriving DecidableEq, Repr

structure QueueConfig where
  loadQueue : Nat
  storeQueue : Nat
  deriving DecidableEq, Repr

structure PredictorConfig where
  localHistoryBits : Nat
  globalHistoryBits : Nat
  deriving DecidableEq, Repr

structure Config where
  general : GeneralConfig
  memory : MemoryConfig
  cache : CacheLevels
  mbox : QueueConfig
  predictor : PredictorConfig
  deriving DecidableEq, Repr

namespace GeneralConfig

def stock : GeneralConfig := ⟨false, 2, 0x307, 0⟩

end GeneralConfig

namespace MemoryConfig

def stock : MemoryConfig := ⟨0, 64 * 1024 * 1024, 128, 128, 0, 8⟩

end MemoryConfig

namespace CacheConfig

def stock : CacheConfig := ⟨true, 64 * 1024, 64, 2, .roundRobin, 0⟩

def stockBcache : CacheConfig :=
  { stock with sizeBytes := 2 * 1024 * 1024, ways := 1, latency := 2 }

def sets (c : CacheConfig) : Nat := c.sizeBytes / max (c.lineBytes * c.ways) 1

end CacheConfig

namespace CacheLevels

def stock : CacheLevels := ⟨.stock, .stock, .stockBcache⟩

end CacheLevels

namespace QueueConfig

def stock : QueueConfig := ⟨32, 32⟩

end QueueConfig

namespace PredictorConfig

def stock : PredictorConfig := ⟨10, 12⟩

end PredictorConfig

namespace Config

def stock : Config := ⟨.stock, .stock, .stock, .stock, .stock⟩

end Config

end EV6
