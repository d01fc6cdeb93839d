import EV6.Config.Basic
import EV6.Fault.Breach

namespace EV6

inductive GeometryError where
  | lineSize (lineBytes : Nat)
  | zeroWays
  | unevenSize (sizeBytes wayBytes : Nat)
  | setCount (sets : Nat)
  | lineMismatch (lineBytes dcacheLineBytes : Nat)
  deriving DecidableEq, Repr

namespace GeometryError

def message : GeometryError → String
  | lineSize n => "line size " ++ toString n ++ " is not a power of two >= 8"
  | zeroWays => "zero ways"
  | unevenSize n m =>
    "size " ++ toString n ++ " is not a multiple of ways * line (" ++ toString m ++ ")"
  | setCount n => toString n ++ " sets is not a non-zero power of two"
  | lineMismatch n m =>
    "line size " ++ toString n ++ " differs from the dcache line size " ++ toString m

end GeometryError

inductive ConfigError where
  | cacheGeometry (name : String) (reason : GeometryError)
  | invalidSize (name : String) (value : Nat)
  | ramAllocation (size : Nat)
  | malformed
  deriving DecidableEq, Repr

namespace ConfigError

def name : ConfigError → String
  | cacheGeometry _ _ => "CacheGeometry"
  | invalidSize _ _ => "InvalidSize"
  | ramAllocation _ => "RamAllocation"
  | malformed => "Malformed"

def message : ConfigError → String
  | cacheGeometry name reason => "invalid " ++ name ++ " geometry: " ++ reason.message
  | invalidSize name value => "invalid size for " ++ name ++ ": " ++ toString value
  | ramAllocation size => "cannot allocate " ++ toString size ++ " bytes of RAM"
  | malformed => "malformed configuration"

end ConfigError

inductive ConfigFailure where
  | refused (error : ConfigError)
  | breach (breach : Breach)
  deriving DecidableEq, Repr

namespace ConfigFailure

def ofBreach {α : Type} (x : Except Breach α) : Except ConfigFailure α := x.mapError breach

def require (ok : Bool) (error : ConfigError) : Except ConfigFailure Unit :=
  if ok then .ok () else .error (refused error)

end ConfigFailure

open ConfigFailure

def isPowerOfTwo (n : Nat) : Bool := n != 0 && n == 1 <<< n.log2

namespace CacheConfig

def validate (c : CacheConfig) (name : String) : Except ConfigFailure Unit := do
  let check (ok : Bool) (reason : GeometryError) := require ok (.cacheGeometry name reason)
  check (isPowerOfTwo c.lineBytes && 8 ≤ c.lineBytes) (.lineSize c.lineBytes)
  check (c.ways != 0) .zeroWays
  let wayBytes ← ofBreach (Machine.mul c.lineBytes c.ways)
  let rest ← ofBreach (Machine.rem c.sizeBytes wayBytes)
  check (rest == 0) (.unevenSize c.sizeBytes wayBytes)
  check (isPowerOfTwo c.sets) (.setCount c.sets)

end CacheConfig

namespace Config

def pageBytes : Nat := 8192

def validate (c : Config) : Except ConfigFailure Unit := do
  let sameLine (name : String) (cache : CacheConfig) :=
    require (cache.lineBytes == c.cache.dcache.lineBytes)
      (.cacheGeometry name (.lineMismatch cache.lineBytes c.cache.dcache.lineBytes))
  let size (name : String) (ok : Bool) (value : Nat) := require ok (.invalidSize name value)
  let historyBits (name : String) (bits : Nat) := size name (bits != 0 && bits ≤ 16) bits
  c.cache.icache.validate "icache"
  c.cache.dcache.validate "dcache"
  c.cache.bcache.validate "bcache"
  sameLine "icache" c.cache.icache
  sameLine "bcache" c.cache.bcache
  size "memory.itb_size" (c.memory.itbSize != 0) c.memory.itbSize
  size "memory.dtb_size" (c.memory.dtbSize != 0) c.memory.dtbSize
  size "mbox.load_queue" (c.mbox.loadQueue != 0) c.mbox.loadQueue
  size "mbox.store_queue" (c.mbox.storeQueue != 0) c.mbox.storeQueue
  size "memory.ram_size" (c.memory.ramSize != 0 && c.memory.ramSize % pageBytes == 0)
    c.memory.ramSize
  historyBits "predictor.local_history_bits" c.predictor.localHistoryBits
  historyBits "predictor.global_history_bits" c.predictor.globalHistoryBits

end Config

end EV6
