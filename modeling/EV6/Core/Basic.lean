import EV6.Branch.Tournament
import EV6.Float.Control
import EV6.Mbox.Basic
import EV6.Statistics.Basic
import EV6.Translation.Unit

namespace EV6

structure Lock where
  held : Bool
  va : Word
  pa : Word
  deriving DecidableEq, Repr

namespace Lock

def released : Lock := ⟨false, 0, 0⟩

def release (l : Lock) : Lock := { l with held := false }

end Lock

structure Core (π : Type) where
  bigEndian : Bool
  /-- The flag that RC and RS read, clear and set. -/
  interruptFlag : Bool
  lock : Lock
  control : FloatControl
  mode : ProcessorMode
  palMode : Bool
  iprs : InternalRegisters
  implver : Word
  /-- The extensions that AMASK reports as implemented. -/
  amask : Word
  translation : TranslationUnit
  mbox : Mbox π
  predictor : Tournament
  statistics : Statistics

abbrev CoreStep (π : Type) := Step (Core π) Fault

namespace Core

variable {π : Type}

def ofConfig (c : Config) (port : π) : Except ConfigFailure (Core π) := do
  c.validate
  let mbox ← Mbox.ofConfig c port
  let translation ←
    ConfigFailure.ofBreach (TranslationUnit.build c.memory.itbSize c.memory.dtbSize)
  let superpages : Word := BitVec.ofNat 64 (c.memory.superpageEnable % 8)
  return {
    bigEndian := c.general.bigEndian
    interruptFlag := false
    lock := .released
    control := .reset
    mode := .kernel
    palMode := false
    iprs := { InternalRegisters.zero with iCtl := superpages <<< 3, mCtl := superpages <<< 1 }
    implver := BitVec.ofNat 64 c.general.implver
    amask := BitVec.ofNat 64 c.general.amask
    translation
    mbox
    predictor := .reset c.predictor.localHistoryBits c.predictor.globalHistoryBits
      (.ofRaw c.general.predictorMode)
    statistics := .zero }

def acquireLock (c : Core π) (va pa : Word) : Core π := { c with lock := ⟨true, va, pa⟩ }

def clearLock (c : Core π) : Core π := { c with lock := c.lock.release }

def count (c : Core π) (f : Statistics → Statistics) : Core π :=
  { c with statistics := f c.statistics }

def memory (c : Core π) : MemoryHierarchy π := c.mbox.memory

def onMbox {ε α : Type} (x : Step (Mbox π) ε α) : Step (Core π) ε α :=
  x.onPart mbox fun mbox c => { c with mbox }

def onMemory {ε α : Type} (x : Step (MemoryHierarchy π) ε α) : Step (Core π) ε α :=
  onMbox (Mbox.onMemory x)

end Core

end EV6
