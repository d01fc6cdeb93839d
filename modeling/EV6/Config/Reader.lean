import EV6.Config.Validation
import EV6.Text.Json
/-!
Configurations as JSON text. Every part and every field may be absent and then has its stock value;
unknown fields are ignored.
-/

namespace EV6

open Json

namespace GeneralConfig

def ofJson? (v : Json) : Option GeneralConfig := do
  let [bigEndian, implver, amask, predictorMode] ←
    fields? ["big_endian", "implver", "amask", "predictor_mode"] v | none
  return {
    bigEndian := ← orElse bool? stock.bigEndian bigEndian
    implver := ← orElse (nat? 64) stock.implver implver
    amask := ← orElse (nat? 64) stock.amask amask
    predictorMode := ← orElse (nat? 8) stock.predictorMode predictorMode }

end GeneralConfig

namespace MemoryConfig

def ofJson? (v : Json) : Option MemoryConfig := do
  let [ramBase, ramSize, itbSize, dtbSize, superpageEnable, memoryLatency] ←
    fields? ["ram_base", "ram_size", "itb_size", "dtb_size", "superpage_enable",
      "memory_latency"] v | none
  return {
    ramBase := ← orElse (nat? 64) stock.ramBase ramBase
    ramSize := ← orElse (nat? 64) stock.ramSize ramSize
    itbSize := ← orElse (nat? 64) stock.itbSize itbSize
    dtbSize := ← orElse (nat? 64) stock.dtbSize dtbSize
    superpageEnable := ← orElse (nat? 8) stock.superpageEnable superpageEnable
    memoryLatency := ← orElse (nat? 64) stock.memoryLatency memoryLatency }

end MemoryConfig

namespace ReplacementPolicy

def ofJson? : Json → Option ReplacementPolicy
  | .string (some s) => ofName? s
  | .object [(some s, .null)] => ofName? s
  | _ => none

end ReplacementPolicy

namespace CacheConfig

def ofJson? (v : Json) : Option CacheConfig := do
  let [enabled, sizeBytes, lineBytes, ways, policy, latency] ←
    fields? ["enabled", "size_bytes", "line_bytes", "ways", "policy", "latency"] v | none
  return {
    enabled := ← orElse bool? stock.enabled enabled
    sizeBytes := ← orElse (nat? 64) stock.sizeBytes sizeBytes
    lineBytes := ← orElse (nat? 64) stock.lineBytes lineBytes
    ways := ← orElse (nat? 64) stock.ways ways
    policy := ← orElse ReplacementPolicy.ofJson? stock.policy policy
    latency := ← orElse (nat? 64) stock.latency latency }

def parse (name text : String) : Except ConfigFailure CacheConfig :=
  match (Json.parse? text).bind ofJson? with
  | none => .error (.refused .malformed)
  | some c => (c.validate name).map fun _ => c

end CacheConfig

namespace CacheLevels

def ofJson? (v : Json) : Option CacheLevels := do
  let [icache, dcache, bcache] ← fields? ["icache", "dcache", "bcache"] v | none
  return {
    icache := ← orElse CacheConfig.ofJson? stock.icache icache
    dcache := ← orElse CacheConfig.ofJson? stock.dcache dcache
    bcache := ← orElse CacheConfig.ofJson? stock.bcache bcache }

end CacheLevels

namespace QueueConfig

def ofJson? (v : Json) : Option QueueConfig := do
  let [loadQueue, storeQueue] ← fields? ["load_queue", "store_queue"] v | none
  return {
    loadQueue := ← orElse (nat? 64) stock.loadQueue loadQueue
    storeQueue := ← orElse (nat? 64) stock.storeQueue storeQueue }

end QueueConfig

namespace PredictorConfig

def ofJson? (v : Json) : Option PredictorConfig := do
  let [localHistoryBits, globalHistoryBits] ←
    fields? ["local_history_bits", "global_history_bits"] v | none
  return {
    localHistoryBits := ← orElse (nat? 64) stock.localHistoryBits localHistoryBits
    globalHistoryBits := ← orElse (nat? 64) stock.globalHistoryBits globalHistoryBits }

end PredictorConfig

namespace Config

def ofJson? (v : Json) : Option Config := do
  let [general, memory, cache, mbox, predictor] ←
    fields? ["general", "memory", "cache", "mbox", "predictor"] v | none
  return {
    general := ← orElse GeneralConfig.ofJson? .stock general
    memory := ← orElse MemoryConfig.ofJson? .stock memory
    cache := ← orElse CacheLevels.ofJson? .stock cache
    mbox := ← orElse QueueConfig.ofJson? .stock mbox
    predictor := ← orElse PredictorConfig.ofJson? .stock predictor }

def parse (text : String) : Except ConfigFailure Config :=
  match (Json.parse? text).bind ofJson? with
  | none => .error (.refused .malformed)
  | some c => c.validate.map fun _ => c

end Config

end EV6
