import EV6.Branch.Counter
import EV6.Fault.Breach
import EV6.Storage.Table
import EV6.Word.Basic
/-!
The tournament branch predictor. A local vote comes from the recent outcomes of branches at the same
place, a global vote from the recent outcomes of all branches, and where they differ a choice
counter, selected by the global path, decides which vote counts.
-/

namespace EV6

structure Prediction where
  taken : Bool
  localVote : Bool
  globalVote : Bool
  choice : Bool
  deriving DecidableEq, Repr

inductive PredictionMode where
  | choice
  | localOnly
  | disabled
  deriving DecidableEq, Repr

namespace PredictionMode

def ofRaw : Nat → PredictionMode
  | 0 => choice
  | 1 => localOnly
  | _ => disabled

def name : PredictionMode → String
  | choice => "Choice"
  | localOnly => "LocalOnly"
  | disabled => "Disabled"

end PredictionMode

structure Tournament where
  mode : PredictionMode
  localBits : Nat
  globalBits : Nat
  /-- The recent outcomes of all branches, the latest in bit 0. -/
  globalPath : Nat
  histories : Table Nat
  localCounters : Table (Counter 3)
  globalCounters : Table (Counter 2)
  choiceCounters : Table (Counter 2)

namespace Tournament

/-- Histories have at most 16 bits. -/
def reset (localBits globalBits : Nat) (mode : PredictionMode) : Tournament :=
  { mode
    localBits := min localBits 16
    globalBits := min globalBits 16
    globalPath := 0
    histories := .ofBlank 0
    localCounters := .ofBlank .weaklyNotTaken
    globalCounters := .ofBlank .weaklyNotTaken
    choiceCounters := .ofBlank .weaklyNotTaken }

def historyBytes : Nat := 2

def build (localBits globalBits : Nat) (mode : PredictionMode) : Except Breach Tournament := do
  let localSize ← Machine.twoPow localBits
  let globalSize ← Machine.twoPow globalBits
  Machine.reserve localSize historyBytes
  Machine.reserve globalSize 1
  .ok (reset localBits globalBits mode)

def historyIndex (p : Tournament) (pc : Word) : Nat := pc.toNat / 4 % (1 <<< p.localBits)

def localHistory (p : Tournament) (pc : Word) : Nat := p.histories.get (p.historyIndex pc)

def localCounter (p : Tournament) (pc : Word) : Counter 3 := p.localCounters.get (p.localHistory pc)

def globalCounter (p : Tournament) : Counter 2 := p.globalCounters.get p.globalPath

def choiceCounter (p : Tournament) : Counter 2 := p.choiceCounters.get p.globalPath

def vote (mode : PredictionMode) (localVote globalVote choice : Bool) : Bool :=
  match mode with
  | .disabled => false
  | .localOnly => localVote
  | .choice =>
    if localVote = globalVote then localVote else if choice then globalVote else localVote

def predict (p : Tournament) (pc : Word) : Prediction :=
  let localVote := (p.localCounter pc).taken
  let globalVote := p.globalCounter.taken
  let choice := p.choiceCounter.taken
  ⟨vote p.mode localVote globalVote choice, localVote, globalVote, choice⟩

def shiftIn (bits history : Nat) (taken : Bool) : Nat :=
  (2 * history + taken.toNat) % (1 <<< bits)

def train (p : Tournament) (pc : Word) (taken localVote globalVote : Bool) : Tournament :=
  let globalRight := globalVote == taken
  let localRight := localVote == taken
  let i := p.historyIndex pc
  let history := p.histories.get i
  { p with
    choiceCounters :=
      if globalRight = localRight then p.choiceCounters
      else p.choiceCounters.modify p.globalPath (·.update globalRight)
    localCounters := p.localCounters.modify history (·.update taken)
    histories := p.histories.set i (shiftIn p.localBits history taken)
    globalCounters := p.globalCounters.modify p.globalPath (·.update taken)
    globalPath := shiftIn p.globalBits p.globalPath taken }

def setMode (p : Tournament) (mode : PredictionMode) : Tournament := { p with mode }

end Tournament

end EV6
