import EV6.Cache.Line
import EV6.Config.Validation
import EV6.Fault.Step
/-!
A set-associative cache. A line that was written is dirty; dirty lines leave the cache only as
victims that the caller writes back. A cache that is not enabled holds nothing and misses always.
-/

namespace EV6

structure Cache where
  name : String
  enabled : Bool
  latency : Nat
  geometry : CacheGeometry
  sets : Table CacheSet

namespace Cache

variable {ε : Type}

def ofConfig (name : String) (c : CacheConfig) : Except ConfigFailure Cache := do
  c.validate name
  ConfigFailure.ofBreach (Machine.reserve (c.sets * c.ways) CacheLine.footprint)
  return { name, enabled := c.enabled, latency := c.latency, geometry := .ofConfig c
           sets := .ofBlank (.empty c.policy c.ways) }

def lineBytes (c : Cache) : Nat := c.geometry.lineBytes

def setAt (c : Cache) (addr : Word) : CacheSet := c.sets.get (c.geometry.setOf addr)

def withSet (c : Cache) (addr : Word) (s : CacheSet) : Cache :=
  { c with sets := c.sets.set (c.geometry.setOf addr) s }

def wayOf (c : Cache) (addr : Word) : Option Nat :=
  if c.enabled then (c.setAt addr).wayOf (c.geometry.tagOf addr) else none

def find (c : Cache) (addr : Word) : Option (Nat × CacheLine) := do
  let way ← c.wayOf addr
  let line ← (c.setAt addr).lineAt way
  return (way, line)

def lookup (c : Cache) (addr : Word) : Option CacheLine := (c.find addr).map (·.2)

def contains (c : Cache) (addr : Word) : Bool := (c.lookup addr).isSome

def offsetOf (c : Cache) (addr : Word) (length : Nat) : Except Breach Nat :=
  let offset := Address.lineOffset addr c.lineBytes
  if offset + length ≤ c.lineBytes then .ok offset else .error (.crossesLine c.name addr length)

def victimOf (c : Cache) (addr : Word) (line : CacheLine) : Victim :=
  ⟨c.geometry.lineAddress (c.geometry.setOf addr) line.tag, line.dirty, line.data⟩

def read (addr : Word) (length : Nat) : Step Cache ε (Option (List Byte)) := do
  let c ← get
  match c.find addr with
  | none => return none
  | some (way, line) =>
    let offset ← Step.check (c.offsetOf addr length)
    set (c.withSet addr ((c.setAt addr).touch way))
    return some (Block.slice line.data offset length)

def write (addr : Word) (data : List Byte) : Step Cache ε Bool := do
  let c ← get
  match c.find addr with
  | none => return false
  | some (way, line) =>
    let offset ← Step.check (c.offsetOf addr data.length)
    set (c.withSet addr (((c.setAt addr).put way (line.written offset data)).touch way))
    return true

def displaced (c : Cache) (addr : Word) : Option Victim :=
  ((c.setAt addr).displaced (c.geometry.tagOf addr)).map (c.victimOf addr)

def filled (c : Cache) (addr : Word) (data : List Byte) (dirty : Bool) : Cache :=
  c.withSet addr
    ((c.setAt addr).fill { tag := c.geometry.tagOf addr, dirty, shared := false, data })

def fill (addr : Word) (data : List Byte) (dirty : Bool) : Step Cache ε (Option Victim) := do
  let c ← get
  if !c.enabled then return none
  if data.length ≠ c.lineBytes then
    Step.check (.error (.partialLine c.name data.length c.lineBytes))
  set (c.filled addr data dirty)
  return c.displaced addr

def invalidate (c : Cache) (addr : Word) : Option Victim × Cache :=
  match c.find addr with
  | none => (none, c)
  | some (way, line) =>
    (some (c.victimOf addr line), c.withSet addr ((c.setAt addr).put way none))

def share (c : Cache) (addr : Word) : Option Victim × Cache :=
  match c.find addr with
  | none => (none, c)
  | some (way, line) =>
    (if line.dirty then some (c.victimOf addr line) else none,
      c.withSet addr ((c.setAt addr).put way (some { line with dirty := false, shared := true })))

def dirtyVictims (c : Cache) : List Victim :=
  (List.range c.geometry.sets).flatMap fun i =>
    (c.sets.get i).dirtyLines.map fun line =>
      ⟨c.geometry.lineAddress i line.tag, true, line.data⟩

def cleared (c : Cache) : Cache := { c with sets := c.sets.map CacheSet.cleared }

def flush (c : Cache) : List Victim × Cache := (c.dirtyVictims, c.cleared)

def occupancy (c : Cache) : Nat := c.sets.total CacheSet.occupancy

end Cache

end EV6
