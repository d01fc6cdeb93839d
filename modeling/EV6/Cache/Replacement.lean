import EV6.Config.Basic
import EV6.Fault.Breach
import EV6.Storage.Table
/-!
Which way of a full set gives up its line: the one filled longest ago, kept as a pointer that moves
past each way it sees filled, or the one used longest ago, kept as the ways in the order of their
last use.
-/

namespace EV6

inductive Replacement where
  | rotating (next : Nat)
  /-- The ways, the most recently used first. -/
  | recency (order : List Nat)
  deriving DecidableEq, Repr

namespace Replacement

def ofPolicy (policy : ReplacementPolicy) (ways : Nat) : Replacement :=
  match policy with
  | .roundRobin => rotating 0
  | .leastRecent => recency (List.range ways)

def promote (order : List Nat) (way : Nat) : List Nat := way :: order.erase way

def touch (r : Replacement) (way : Nat) : Replacement :=
  match r with
  | rotating next => rotating next
  | recency order => recency (promote order way)

def filled (r : Replacement) (ways way : Nat) : Replacement :=
  match r with
  | rotating next => rotating (if next = way then (way + 1) % ways else next)
  | recency order => recency (promote order way)

def victim : Replacement → Nat
  | rotating next => next
  | recency order => order.getLastD 0

theorem promote_perm {order : List Nat} {way : Nat} (h : way ∈ order) :
    (promote order way).Perm order := (List.perm_cons_erase h).symm

end Replacement

structure ReplacementBank where
  policy : ReplacementPolicy
  ways : Nat
  count : Nat
  sets : Table Replacement

namespace ReplacementBank

/-- The bytes that the state of a set takes, apart from the ways that it lists. -/
def footprint : ReplacementPolicy → Nat
  | .roundRobin => 8
  | .leastRecent => 24

def wayBytes : Nat := 8

def ofSize (policy : ReplacementPolicy) (count ways : Nat) : ReplacementBank :=
  ⟨policy, ways, count, .ofBlank (.ofPolicy policy ways)⟩

def build (policy : ReplacementPolicy) (count ways : Nat) : Except Breach ReplacementBank := do
  Machine.reserve count (footprint policy)
  if count = 0 then return ofSize policy 0 0
  if policy = .leastRecent then Machine.reserve ways wayBytes
  return ofSize policy count ways

def checkSet (b : ReplacementBank) (set : Nat) : Except Breach Unit :=
  if set < b.count then .ok () else .error (.outOfRange set b.count)

def touch (b : ReplacementBank) (set way : Nat) : Except Breach ReplacementBank := do
  if b.policy ≠ .roundRobin then b.checkSet set
  return { b with sets := b.sets.modify set (·.touch way) }

def filled (b : ReplacementBank) (set way : Nat) : Except Breach ReplacementBank := do
  b.checkSet set
  if b.ways = 0 && b.sets.get set = .rotating way then throw .zeroDivisor
  return { b with sets := b.sets.modify set (·.filled b.ways way) }

def victim (b : ReplacementBank) (set : Nat) : Except Breach Nat := do
  b.checkSet set
  return (b.sets.get set).victim

def fillVictim (b : ReplacementBank) (set : Nat) : Except Breach ReplacementBank := do
  b.filled set (← b.victim set)

def victims (b : ReplacementBank) : List Nat :=
  (List.range b.count).map fun i => (b.sets.get i).victim

end ReplacementBank

end EV6
