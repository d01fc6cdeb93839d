import EV6.Fault.Breach
import EV6.Float.Ieee.Arithmetic
import EV6.Statistics.Basic
import EV6.Text.Fixed
/-!
The statistics as text. Rates are computed in T_floating arithmetic, rounded to nearest, and printed
with two places. The two lines that depend on the host's clock have only their label.
-/

namespace EV6.Statistics

def context : IeeeContext := ⟨.nearestEven, .none, .reset⟩

def ofCount (n : Nat) : Word :=
  if n = 0 then 0 else (context.finish .t ⟨Exact.ofInt n, false⟩).bits

def hundred : Word := 0x4059000000000000

def percent (part rest : Nat) : Except Breach Word := do
  let total ← Machine.add part rest
  return if total = 0 then 0
    else (context.div .t (context.mul .t hundred (ofCount part)).bits (ofCount total)).bits

def share (s : Statistics) (count : Nat) : Word :=
  let retired := ofCount (max s.instructionsRetired 1)
  (context.mul .t (context.div .t (ofCount count) retired).bits hundred).bits

def percentText (rate : Word) : String :=
  Fixed.twoPlaces (IeeeFormat.t.unpack rate).exact ++ "%"

structure Rates where
  branch : Word
  icache : Word
  dcache : Word
  bcache : Word
  deriving DecidableEq, Repr

def rates (s : Statistics) : Except Breach Rates := do
  let branch ← percent s.predicted s.mispredicted
  let icache ← percent s.icacheHits s.icacheMisses
  let dcache ← percent s.dcacheHits s.dcacheMisses
  let bcache ← percent s.bcacheHits s.bcacheMisses
  return { branch, icache, dcache, bcache }

def sectionNames : List String := ["summary", "instruction_mix", "branch", "memory"]

def doubleRule : String := "".pushn '=' 58

def singleRule : String := "".pushn '-' 58

def countLine (label : String) (count : Nat) : String :=
  Fixed.padRight 25 label ++ toString count

def summaryLines (s : Statistics) : List String :=
  ["", doubleRule, "ALPHA 21264 CORE STATISTICS", doubleRule, "host_seconds",
    countLine "sim_insts" s.instructionsRetired, countLine "sim_polls" s.polls,
    countLine "sim_faults" s.faults, "sim_mips", singleRule]

def mixLine (s : Statistics) (label : String) (count : Nat) : String :=
  "  " ++ Fixed.padRight 22 label ++ " " ++ toString count
    ++ " (" ++ percentText (s.share count) ++ ")"

def mixLines (s : Statistics) : List String :=
  ["INSTRUCTION MIX", s.mixLine "op.integer" s.integerRetired, s.mixLine "op.fp" s.floatRetired,
    s.mixLine "op.load" s.loadRetired, s.mixLine "op.store" s.storeRetired,
    s.mixLine "op.branch" s.branchRetired, s.mixLine "op.system" s.systemRetired, singleRule]

def branchLines (s : Statistics) : Except Breach (List String) := do
  let lookups ← Machine.add s.predicted s.mispredicted
  let accuracy ← percent s.predicted s.mispredicted
  return ["BRANCH PREDICTION", countLine "  bp.lookups" lookups,
    countLine "  bp.mispredicts" s.mispredicted,
    Fixed.padRight 25 "  bp.accuracy" ++ percentText accuracy, singleRule]

def cacheLine (label : String) (hits misses : Nat) : Except Breach String := do
  let accesses ← Machine.add hits misses
  let missRate ← percent misses hits
  return "  " ++ Fixed.padRight 6 label ++ " accesses: " ++ Fixed.padRight 10 (toString accesses)
    ++ " | hits: " ++ Fixed.padRight 10 (toString hits)
    ++ " | miss_rate: " ++ percentText missRate

def memoryLines (s : Statistics) : Except Breach (List String) := do
  let icache ← cacheLine "Icache" s.icacheHits s.icacheMisses
  let dcache ← cacheLine "Dcache" s.dcacheHits s.dcacheMisses
  let bcache ← cacheLine "Bcache" s.bcacheHits s.bcacheMisses
  return ["MEMORY HIERARCHY", icache, dcache, bcache, countLine "  writebacks" s.writebacks,
    countLine "  itb.misses" s.itbMisses, countLine "  dtb.misses" s.dtbMisses,
    countLine "  mbox.loads" s.loadsIssued, countLine "  mbox.stores" s.storesRetired,
    countLine "  mbox.forwards" s.storeForwards]

def report (s : Statistics) (sections : List String) : Except Breach (List String) := do
  let wants (name : String) : Bool := sections.isEmpty || sections.contains name
  let branch ← if wants "branch" then s.branchLines else .ok []
  let memory ← if wants "memory" then s.memoryLines else .ok []
  return (if wants "summary" then s.summaryLines else [])
    ++ (if wants "instruction_mix" then s.mixLines else []) ++ branch ++ memory ++ [doubleRule]

end EV6.Statistics
