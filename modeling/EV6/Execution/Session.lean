import EV6.Execution.Dispatch
import EV6.Execution.Retirement

namespace EV6

structure Record where
  instruction : Instruction
  fault : Option Fault

structure Session (π : Type) where
  core : Core π
  records : Array Record
  /-- The last sequence number that was given. -/
  seq : Nat

namespace Session

variable {π : Type}

def ofCore (core : Core π) : Session π := ⟨core, #[], 0⟩

def instruction? (s : Session π) (index : Nat) : Option Instruction :=
  (s.records[index]?).map (·.instruction)

def fault? (s : Session π) (index : Nat) : Option Fault := (s.records[index]?).bind (·.fault)

def ended (o : Outcome (Execution π) Fault Unit) : Except Breach (Option Fault × Execution π) :=
  match o with
  | .done _ e => .ok (none, e)
  | .failed f e => .ok (some f, e)
  | .broken b => .error b

def execute [BlockDevice π] (s : Session π) (i : Instruction) :
    Except Breach (Option Fault × Session π) := do
  let (fault, e) ← ended (s.core.execute i)
  return (fault, { s with core := e.core, records := s.records.push ⟨e.instruction, fault⟩ })

def retire [BlockDevice π] (s : Session π) (index : Nat) :
    Except Breach (Option Fault × Session π) :=
  match s.records[index]? with
  | none => .ok (none, s)
  | some r => do
    let (fault, e) ← ended (s.core.retire r.instruction)
    return (fault,
      { s with
        core := e.core
        records := s.records.modify index fun r => { r with instruction := e.instruction } })

def poll (s : Session π) : Nat × Session π :=
  let (d, core) := s.core.poll (s.records.toList.map (·.instruction))
  let records := s.records.zipWith (fun r i => { r with instruction := i }) d.instructions.toArray
  (d.completed, { s with core, records })

def pollTimes : Nat → Session π → List Nat × Session π
  | 0, s => ([], s)
  | n + 1, s =>
    let (completed, s) := s.poll
    let (rest, s) := pollTimes n s
    (completed :: rest, s)

def waits (s : Session π) (index : Nat) : Bool :=
  (s.instruction? index).any fun i => i.mnemonic.loads && i.slot.isSome

def awaitData (index : Nat) : Nat → Session π → Nat × Session π
  | 0, s => (0, s)
  | bound + 1, s =>
    if s.waits index then
      let (n, s) := awaitData index bound s.poll.2
      (n + 1, s)
    else (0, s)

def run [BlockDevice π] (s : Session π) (bound : Nat) (i : Instruction) :
    Except Breach (Option Fault × Nat × Session π) := do
  let index := s.records.size
  match ← s.execute i with
  | (some fault, s) => return (some fault, 0, s)
  | (none, s) =>
    let (polls, s) := awaitData index bound s
    let (fault, s) ← s.retire index
    return (fault, polls, s)

end Session

end EV6
