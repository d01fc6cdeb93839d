import EV6.Fault.Breach
import EV6.Fault.Basic
import EV6.Translation.Entry
/-!
A translation buffer of one stream: a fully associative store of page entries, and the miss that is
waiting to be serviced. A new entry takes the place of one it would shadow, else the first empty
slot, else the slot under a rotating pointer.
-/

namespace EV6

structure TranslationBuffer where
  slots : List (Option PageEntry)
  next : Nat
  /-- The address of the first miss not yet serviced. -/
  pending : Option Word
  deriving DecidableEq, Repr

namespace TranslationBuffer

def entryFootprint : Nat := 32

def ofSize (size : Nat) : TranslationBuffer := ⟨List.replicate size none, 0, none⟩

def build (size : Nat) : Except Breach TranslationBuffer :=
  (Machine.reserve size entryFootprint).map fun _ => ofSize size

def capacity (t : TranslationBuffer) : Nat := t.slots.length

def occupancy (t : TranslationBuffer) : Nat := t.slots.countP Option.isSome

def entries (t : TranslationBuffer) : List PageEntry := t.slots.filterMap id

def lookup (t : TranslationBuffer) (va : Word) (asn : Byte) : Option PageEntry :=
  t.entries.find? (·.matchesAddress va asn)

def missKind (t : TranslationBuffer) : MissKind := if t.pending.isSome then .double else .single

def recordMiss (t : TranslationBuffer) (va : Word) : TranslationBuffer :=
  { t with pending := some (t.pending.getD va) }

def clearMiss (t : TranslationBuffer) : TranslationBuffer := { t with pending := none }

def matchesSlot (va : Word) (asn : Byte) : Option PageEntry → Bool
  | none => false
  | some e => e.matchesAddress va asn

def fillSlot (t : TranslationBuffer) (va : Word) (asn : Byte) : Nat :=
  match t.slots.findIdx? (matchesSlot va asn) with
  | some i => i
  | none => (t.slots.findIdx? Option.isNone).getD t.next

def displaces (t : TranslationBuffer) (va : Word) (asn : Byte) : Bool :=
  !t.slots.any (matchesSlot va asn) && !t.slots.any Option.isNone

def insert (t : TranslationBuffer) (va pte : Word) (asn : Byte) : TranslationBuffer :=
  { slots := t.slots.set (t.fillSlot va asn) (some (PageEntry.ofPte va pte asn))
    next := if t.displaces va asn then (t.next + 1) % t.capacity else t.next
    pending := none }

def insert? (t : TranslationBuffer) (va pte : Word) (asn : Byte) :
    Except Breach TranslationBuffer :=
  if t.capacity = 0 then .error .zeroDivisor else .ok (t.insert va pte asn)

def invalidateAll (t : TranslationBuffer) : TranslationBuffer := ofSize t.capacity

def dropWhere (t : TranslationBuffer) (p : PageEntry → Bool) : TranslationBuffer :=
  { t with slots := t.slots.map fun s => s.filter fun e => !p e }

def invalidateProcess (t : TranslationBuffer) : TranslationBuffer := t.dropWhere (!·.anySpace)

def invalidateSingle (t : TranslationBuffer) (va : Word) (asn : Byte) : TranslationBuffer :=
  t.dropWhere (·.matchesAddress va asn)

end TranslationBuffer

end EV6
