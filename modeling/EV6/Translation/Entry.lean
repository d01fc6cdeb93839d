import EV6.Registers.Mode
import EV6.Storage.Bytes
import EV6.Word.Address
/-!
Page table entries as a translation buffer holds them. The granularity hint makes a page 1, 8, 64 or
512 times as large. An entry matches the addresses of its page in its own address space, or in every
one if its address-space-match bit is set.
-/

namespace EV6

inductive AccessKind where
  | fetch
  | read
  | write
  deriving DecidableEq, Repr

namespace AccessKind

def all : List AccessKind := [.fetch, .read, .write]

def name : AccessKind → String
  | fetch => "Fetch"
  | read => "Read"
  | write => "Write"

def ofName? (s : String) : Option AccessKind := all.find? (·.name == s)

def isInstruction : AccessKind → Bool
  | fetch => true
  | read | write => false

end AccessKind

structure PageEntry where
  /-- The virtual page number, at the granularity of the page. -/
  tag : Word
  /-- The page frame number, in units of 8 KiB. -/
  frame : Word
  asn : Byte
  anySpace : Bool
  granularity : BitVec 2
  valid : Bool
  /-- The modes that may read, one bit each. -/
  readable : BitVec 4
  writable : BitVec 4
  faultOnRead : Bool
  faultOnWrite : Bool
  faultOnExecute : Bool
  deriving DecidableEq, Repr

namespace PageEntry

def virtualBits : Nat := 48

def shiftOf (granularity : BitVec 2) : Nat := Address.pageBits + 3 * granularity.toNat

def tagOf (va : Word) (granularity : BitVec 2) : Word :=
  (va.setWidth virtualBits).setWidth 64 >>> shiftOf granularity

def ofPte (va pte : Word) (asn : Byte) : PageEntry :=
  let granularity := pte.extractLsb' 5 2
  { tag := tagOf va granularity
    frame := pte >>> 32
    asn
    anySpace := pte.getLsbD 4
    granularity
    valid := pte.getLsbD 0
    readable := pte.extractLsb' 8 4
    writable := pte.extractLsb' 12 4
    faultOnRead := pte.getLsbD 1
    faultOnWrite := pte.getLsbD 2
    faultOnExecute := pte.getLsbD 3 }

def pageBytes (e : PageEntry) : Nat := 1 <<< shiftOf e.granularity

def matchesAddress (e : PageEntry) (va : Word) (asn : Byte) : Bool :=
  (e.anySpace || e.asn == asn) && e.tag == tagOf va e.granularity

def physical (e : PageEntry) (va : Word) : Word :=
  let offsetMask := BitVec.ofNat 64 e.pageBytes - 1
  ((e.frame <<< Address.pageBits) &&& ~~~offsetMask) ||| (va &&& offsetMask)

def canRead (e : PageEntry) (mode : ProcessorMode) : Bool := e.readable.getLsbD mode.toNat

def canWrite (e : PageEntry) (mode : ProcessorMode) : Bool := e.writable.getLsbD mode.toNat

def permits (e : PageEntry) (access : AccessKind) (mode : ProcessorMode) : Bool :=
  match access with
  | .fetch | .read => e.canRead mode
  | .write => e.canWrite mode

end PageEntry

end EV6
