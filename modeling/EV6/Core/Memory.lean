import EV6.Core.Basic

namespace EV6.Core

variable {π : Type}

def raiseData {α : Type} (fault : Fault) (opcode : Opcode) (write : Bool) : CoreStep π α := do
  modify fun c => { c with iprs := c.iprs.latch fault opcode write }
  throw fault

def isDtbMiss : Fault → Bool
  | .dtbMiss _ _ => true
  | _ => false

def isItbMiss : Fault → Bool
  | .itbMiss _ => true
  | _ => false

def countWhen (b : Bool) (f : Statistics → Statistics) (c : Core π) : Core π :=
  if b then c.count f else c

def translate {ε : Type} (va : Word) (access : AccessKind) : Step (Core π) ε (Except Fault Word) :=
  modifyGet fun c =>
    let (answer, translation) := c.translation.translate va access c.mode c.iprs
    (answer, { c with translation })

def translateData (opcode : Opcode) (va : Word) (access : AccessKind) : CoreStep π Word := do
  match ← translate va access with
  | .ok pa => return pa
  | .error fault =>
    modify (countWhen (isDtbMiss fault) fun s => { s with dtbMisses := s.dtbMisses + 1 })
    raiseData fault opcode (access == .write)

def checkAlignment (opcode : Opcode) (va : Word) (width : Width) (write : Bool) :
    CoreStep π Unit :=
  if Address.isAligned va width then pure ()
  else raiseData (.unaligned va) opcode write

def countFill (level : HitLevel) (c : Core π) : Core π :=
  match level with
  | .bcache => c.count fun s => { s with bcacheHits := s.bcacheHits + 1 }
  | .memory =>
    countWhen c.memory.bcache.enabled (fun s => { s with bcacheMisses := s.bcacheMisses + 1 }) c
  | .firstLevel | .uncached => c

def countAccess (access : Access) (c : Core π) : Core π :=
  let c := c.count fun s => { s with writebacks := s.writebacks + access.writebacks }
  match access.level with
  | .firstLevel => c.count fun s => { s with dcacheHits := s.dcacheHits + 1 }
  | .uncached => c
  | level => countFill level (c.count fun s => { s with dcacheMisses := s.dcacheMisses + 1 })

def issueLoad [BlockDevice π] (i : Instruction) (va pa : Word) (width : Width) :
    CoreStep π Instruction := do
  let (i, issue) ← (onMbox (Mbox.issueLoad i va pa width)).mapError BusError.fault
  modify (·.count fun s => { s with loadsIssued := s.loadsIssued + 1 })
  modify (countWhen issue.forwarded fun s => { s with storeForwards := s.storeForwards + 1 })
  modify (countAccess issue.access)
  return i

def retireStore [BlockDevice π] (slot : Nat) : CoreStep π Unit := do
  let (_, access) ← (onMbox (Mbox.retireStore slot)).mapError BusError.fault
  modify (·.count fun s => { s with storesRetired := s.storesRetired + 1 })
  modify (countAccess access)

def poll (c : Core π) (pending : List Instruction) : Mbox.Delivery × Core π :=
  let (d, mbox) := c.mbox.poll pending
  (d, { c.count (fun s => { s with polls := s.polls + 1 }) with iprs := c.iprs.tick 1, mbox })

def translateFetch (pc : Word) : CoreStep π Word := do
  if (← get).palMode then return pc &&& Address.physicalMask
  match ← translate pc .fetch with
  | .ok pa => return pa
  | .error fault =>
    modify (countWhen (isItbMiss fault) fun s => { s with itbMisses := s.itbMisses + 1 })
    throw fault

def countFetch (hit : Bool) (level : HitLevel) (c : Core π) : Core π :=
  if !c.memory.icache.enabled then c
  else if hit then c.count fun s => { s with icacheHits := s.icacheHits + 1 }
  else countFill level (c.count fun s => { s with icacheMisses := s.icacheMisses + 1 })

def fetch [BlockDevice π] (pc : Word) : CoreStep π Longword := do
  let pa ← translateFetch pc
  let hit := (← get).memory.icache.contains pa
  let (word, access) ← (onMemory (MemoryHierarchy.fetch pa)).mapError BusError.fault
  modify (countFetch hit access.level)
  return word

def countProbe (r : ProbeResult) (c : Core π) : Core π :=
  countWhen r.dirty (fun s => { s with writebacks := s.writebacks + 1 }) c

def locks (c : Core π) (pa : Word) : Bool :=
  let line := c.memory.dcache.lineBytes
  c.lock.held && Address.lineBase c.lock.pa line == Address.lineBase pa line

def probeInvalidate [BlockDevice π] (pa : Word) : Step (Core π) BusError ProbeResult := do
  let r ← onMemory (MemoryHierarchy.probeInvalidate pa)
  modify (countProbe r)
  modify fun c => if c.locks pa then c.clearLock else c
  return r

def probeShare [BlockDevice π] (pa : Word) : Step (Core π) BusError ProbeResult := do
  let r ← onMemory (MemoryHierarchy.probeShare pa)
  modify (countProbe r)
  return r

def evictBlock [BlockDevice π] (va : Word) : CoreStep π Unit := do
  let c ← get
  match c.translation.peek va .read c.mode c.iprs with
  | none => return ()
  | some pa =>
    let _ ← (onMemory (MemoryHierarchy.evict pa)).mapError BusError.fault
    return ()

end EV6.Core
