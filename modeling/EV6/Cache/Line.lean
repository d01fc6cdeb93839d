import EV6.Cache.Replacement
import EV6.Storage.Bytes
import EV6.Word.Address

namespace EV6

structure CacheLine where
  tag : Nat
  dirty : Bool
  /-- Another agent may hold a copy. -/
  shared : Bool
  data : List Byte
  deriving DecidableEq, Repr

namespace CacheLine

/-- The bytes that a cache sets aside for a line, apart from its data. -/
def footprint : Nat := 40

def written (line : CacheLine) (offset : Nat) (data : List Byte) : CacheLine :=
  { line with data := Block.splice line.data offset data, dirty := true, shared := false }

end CacheLine

structure Victim where
  addr : Word
  dirty : Bool
  data : List Byte
  deriving DecidableEq, Repr

structure CacheGeometry where
  sets : Nat
  ways : Nat
  lineBytes : Nat
  deriving DecidableEq, Repr

namespace CacheGeometry

def ofConfig (c : CacheConfig) : CacheGeometry := ⟨c.sets, c.ways, c.lineBytes⟩

def setOf (g : CacheGeometry) (addr : Word) : Nat := addr.toNat / g.lineBytes % g.sets

def tagOf (g : CacheGeometry) (addr : Word) : Nat := addr.toNat / (g.lineBytes * g.sets)

def lineAddress (g : CacheGeometry) (set tag : Nat) : Word :=
  BitVec.ofNat 64 ((tag * g.sets + set) * g.lineBytes)

theorem lineAddress_setOf_tagOf (g : CacheGeometry) (addr : Word) :
    (g.lineAddress (g.setOf addr) (g.tagOf addr)).toNat =
      addr.toNat / g.lineBytes * g.lineBytes := by
  have h : g.tagOf addr * g.sets + g.setOf addr = addr.toNat / g.lineBytes := by
    rw [tagOf, setOf, ← Nat.div_div_eq_div_mul, Nat.mul_comm]
    exact Nat.div_add_mod _ _
  rw [lineAddress, h, BitVec.toNat_ofNat, Nat.mod_eq_of_lt]
  exact Nat.lt_of_le_of_lt (Nat.div_mul_le_self _ _) addr.isLt

end CacheGeometry

/-- A way that holds no valid line is `none`: a line in a way has no flag that could be off. -/
structure CacheSet where
  lines : List (Option CacheLine)
  order : Replacement
  deriving DecidableEq, Repr

namespace CacheSet

def empty (policy : ReplacementPolicy) (ways : Nat) : CacheSet :=
  ⟨List.replicate ways none, .ofPolicy policy ways⟩

def holds (tag : Nat) (slot : Option CacheLine) : Bool := slot.any (·.tag == tag)

def wayOf (s : CacheSet) (tag : Nat) : Option Nat := s.lines.findIdx? (holds tag)

def lineAt (s : CacheSet) (way : Nat) : Option CacheLine := s.lines[way]?.join

def lookup (s : CacheSet) (tag : Nat) : Option CacheLine := (s.wayOf tag).bind s.lineAt

def fillWay (s : CacheSet) (tag : Nat) : Nat :=
  match s.wayOf tag with
  | some way => way
  | none => (s.lines.findIdx? Option.isNone).getD s.order.victim

def put (s : CacheSet) (way : Nat) (line : Option CacheLine) : CacheSet :=
  { s with lines := s.lines.set way line }

def touch (s : CacheSet) (way : Nat) : CacheSet := { s with order := s.order.touch way }

def fill (s : CacheSet) (line : CacheLine) : CacheSet :=
  let way := s.fillWay line.tag
  ⟨s.lines.set way (some line), s.order.filled s.lines.length way⟩

def displaced (s : CacheSet) (tag : Nat) : Option CacheLine :=
  (s.lineAt (s.fillWay tag)).filter (·.tag != tag)

def cleared (s : CacheSet) : CacheSet := { s with lines := s.lines.map fun _ => none }

def occupancy (s : CacheSet) : Nat := s.lines.countP Option.isSome

def dirtyLines (s : CacheSet) : List CacheLine := (s.lines.filterMap id).filter (·.dirty)

end CacheSet

end EV6
