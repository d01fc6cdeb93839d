import EV6.Config.Validation
import EV6.Fault.Step
import EV6.Fault.Basic
import EV6.Storage.Bytes
import EV6.Storage.Table
/-!
A store of bytes, and RAM: such a store at a physical address, which answers an access exactly when
all of it lies inside. Bytes that were never written are zero.
-/

namespace EV6

structure ByteStore where
  size : Nat
  content : Table Byte
  size_lt : size < Machine.limit

namespace ByteStore

def ofSize (size : Nat) (h : size < Machine.limit) : ByteStore := ⟨size, .ofBlank 0, h⟩

def bytes (s : ByteStore) (offset length : Nat) : List Byte :=
  (List.range length).map fun i => s.content.get (offset + i)

def put (s : ByteStore) (offset : Nat) (data : List Byte) : ByteStore :=
  { s with content := data.zipIdx.foldl (fun c (b, i) => c.set (offset + i) b) s.content }

def read (s : ByteStore) (offset length : Nat) : Except Breach (List Byte) := do
  let stop ← Machine.add offset length
  if stop ≤ s.size then .ok (s.bytes offset length) else .error .memoryRead

def write (s : ByteStore) (offset : Nat) (data : List Byte) : Except Breach ByteStore := do
  let stop ← Machine.add offset data.length
  if stop ≤ s.size then .ok (s.put offset data) else .error .memoryWrite

/-- The host gives neither an empty mapping nor one of its whole address space. -/
def allocate (size : Nat) : Except ConfigError ByteStore :=
  if h : size = 0 ∨ 0x800000000000 ≤ size then .error (.ramAllocation size)
  else .ok (ofSize size (by simp only [Machine.limit]; omega))

end ByteStore

structure Ram where
  base : Word
  store : ByteStore

namespace Ram

def fresh (base size : Word) : Ram := ⟨base, .ofSize size.toNat size.isLt⟩

def allocate (base : Word) (size : Nat) : Except ConfigError Ram :=
  (ByteStore.allocate size).map fun store => ⟨base, store⟩

def ofConfig (c : MemoryConfig) : Except ConfigError Ram :=
  allocate (BitVec.ofNat 64 c.ramBase) c.ramSize

def size (r : Ram) : Nat := r.store.size

/-- Where a range of addresses starts in the store, if all of it lies there. The distance from the
base and the end of the range need not be numbers of 64 bits: where they are not, nothing lies. -/
def offset (r : Ram) (addr : Word) (length : Nat) : Except BusError Nat := do
  let unmapped : BusError := ⟨addr, length⟩
  let start ← (Machine.sub addr.toNat r.base.toNat).mapError fun _ => unmapped
  let stop ← (Machine.add start length).mapError fun _ => unmapped
  if stop ≤ r.size then .ok start else .error unmapped

def read (addr : Word) (length : Nat) : Step Ram BusError (List Byte) := do
  let r ← get
  let offset ← Step.ofExcept (r.offset addr length)
  Step.check (r.store.read offset length)

def write (addr : Word) (data : List Byte) : Step Ram BusError Unit := do
  let r ← get
  let offset ← Step.ofExcept (r.offset addr data.length)
  let store ← Step.check (r.store.write offset data)
  set { r with store }

def load (addr : Word) (image : List Byte) : Step Ram BusError Unit := write addr image

end Ram

end EV6
