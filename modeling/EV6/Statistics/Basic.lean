
namespace EV6

structure Statistics where
  polls : Nat
  instructionsRetired : Nat
  faults : Nat
  integerRetired : Nat
  floatRetired : Nat
  loadRetired : Nat
  storeRetired : Nat
  branchRetired : Nat
  systemRetired : Nat
  predicted : Nat
  mispredicted : Nat
  loadsIssued : Nat
  storesRetired : Nat
  storeForwards : Nat
  icacheHits : Nat
  icacheMisses : Nat
  dcacheHits : Nat
  dcacheMisses : Nat
  bcacheHits : Nat
  bcacheMisses : Nat
  writebacks : Nat
  itbMisses : Nat
  dtbMisses : Nat
  deriving DecidableEq, Repr

namespace Statistics

def zero : Statistics :=
  ⟨0, 0, 0, 0, 0, 0, 0, 0, 0, 0, 0, 0, 0, 0, 0, 0, 0, 0, 0, 0, 0, 0, 0⟩

def toList (s : Statistics) : List (String × Nat) :=
  [("polls", s.polls), ("instructions_retired", s.instructionsRetired), ("faults", s.faults),
    ("inst_integer", s.integerRetired), ("inst_fp", s.floatRetired), ("inst_load", s.loadRetired),
    ("inst_store", s.storeRetired), ("inst_branch", s.branchRetired),
    ("inst_system", s.systemRetired), ("branch_predictions", s.predicted),
    ("branch_mispredictions", s.mispredicted), ("loads_issued", s.loadsIssued),
    ("stores_retired", s.storesRetired), ("store_forwards", s.storeForwards),
    ("icache_hits", s.icacheHits), ("icache_misses", s.icacheMisses),
    ("dcache_hits", s.dcacheHits), ("dcache_misses", s.dcacheMisses),
    ("bcache_hits", s.bcacheHits), ("bcache_misses", s.bcacheMisses),
    ("writebacks", s.writebacks), ("itb_misses", s.itbMisses), ("dtb_misses", s.dtbMisses)]

def ofNames (f : String → Nat) : Statistics :=
  { polls := f "polls"
    instructionsRetired := f "instructions_retired"
    faults := f "faults"
    integerRetired := f "inst_integer"
    floatRetired := f "inst_fp"
    loadRetired := f "inst_load"
    storeRetired := f "inst_store"
    branchRetired := f "inst_branch"
    systemRetired := f "inst_system"
    predicted := f "branch_predictions"
    mispredicted := f "branch_mispredictions"
    loadsIssued := f "loads_issued"
    storesRetired := f "stores_retired"
    storeForwards := f "store_forwards"
    icacheHits := f "icache_hits"
    icacheMisses := f "icache_misses"
    dcacheHits := f "dcache_hits"
    dcacheMisses := f "dcache_misses"
    bcacheHits := f "bcache_hits"
    bcacheMisses := f "bcache_misses"
    writebacks := f "writebacks"
    itbMisses := f "itb_misses"
    dtbMisses := f "dtb_misses" }

theorem ofNames_lookup (s : Statistics) :
    ofNames (fun name => (s.toList.lookup name).getD 0) = s := by
  simp [ofNames, toList, List.lookup_cons]

end Statistics

end EV6
