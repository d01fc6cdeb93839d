import EV6.Text.Hex
/-!
Breaches of an internal contract of the core: the model stops at one instead of going on with a
state that has no meaning. No architectural exception is a breach.
-/

namespace EV6

inductive MachineOperation where
  | add
  | subtract
  | multiply
  | negate
  | shiftLeft
  deriving DecidableEq, Repr

namespace MachineOperation

def name : MachineOperation → String
  | add => "add"
  | subtract => "subtract"
  | multiply => "multiply"
  | negate => "negate"
  | shiftLeft => "shift left"

end MachineOperation

inductive Breach where
  | overflow (operation : MachineOperation)
  | zeroDivisor
  | outOfRange (index length : Nat)
  | tableTooLarge
  | memoryRead
  | memoryWrite
  | crossesLine (cache : String) (addr : Word) (length : Nat)
  | partialLine (cache : String) (length lineBytes : Nat)
  | blockLength (length expected : Nat)
  | loadQueueFull (seq : Nat)
  | loadSlotFree (slot : Nat)
  | storeQueueFull (seq : Nat)
  | storeOutOfOrder (slot : Nat)
  | unfinished (seq : Nat)
  deriving DecidableEq, Repr

namespace Breach

def message : Breach → String
  | overflow op => "attempt to " ++ op.name ++ " with overflow"
  | zeroDivisor => "attempt to calculate the remainder with a divisor of zero"
  | outOfRange index length =>
    "index out of bounds: the len is " ++ toString length ++ " but the index is " ++ toString index
  | tableTooLarge => "capacity overflow"
  | memoryRead => "DRAM read out of bounds"
  | memoryWrite => "DRAM write out of bounds"
  | crossesLine cache addr length =>
    cache ++ " access at " ++ Hex.word addr ++ " (+" ++ toString length ++ ") crosses a cache line"
  | partialLine cache length lineBytes =>
    cache ++ " fill of " ++ toString length ++ " bytes into " ++ toString lineBytes ++ "-byte lines"
  | blockLength length expected =>
    "copy_from_slice: source slice length (" ++ toString length
      ++ ") does not match destination slice length (" ++ toString expected ++ ")"
  | loadQueueFull seq => "load queue overflow at seq " ++ toString seq
  | loadSlotFree slot => "load slot " ++ toString slot ++ " released while free"
  | storeQueueFull seq => "store queue overflow at seq " ++ toString seq
  | storeOutOfOrder slot => "store slot " ++ toString slot ++ " retired out of program order"
  | unfinished seq => "instruction " ++ toString seq ++ " retired before completion"

end Breach

namespace Machine

def limit : Nat := 0x10000000000000000

def add (a b : Nat) : Except Breach Nat :=
  if a + b < limit then .ok (a + b) else .error (.overflow .add)

def sub (a b : Nat) : Except Breach Nat :=
  if b ≤ a then .ok (a - b) else .error (.overflow .subtract)

def mul (a b : Nat) : Except Breach Nat :=
  if a * b < limit then .ok (a * b) else .error (.overflow .multiply)

def rem (a b : Nat) : Except Breach Nat :=
  if b = 0 then .error .zeroDivisor else .ok (a % b)

def twoPow (n : Nat) : Except Breach Nat :=
  if n < 64 then .ok (1 <<< n) else .error (.overflow .shiftLeft)

/-- Makes room for a table, whose bytes can be counted with a sign. -/
def reserve (entries entryBytes : Nat) : Except Breach Unit :=
  if entries * entryBytes < 0x8000000000000000 then .ok () else .error .tableTooLarge

theorem add_eq_ok_iff {a b c : Nat} : add a b = .ok c ↔ a + b = c ∧ c < limit := by
  unfold add
  split <;> simp <;> omega

theorem sub_eq_ok_iff {a b c : Nat} : sub a b = .ok c ↔ b ≤ a ∧ a - b = c := by
  unfold sub
  split <;> simp <;> omega

theorem mul_eq_ok_iff {a b c : Nat} : mul a b = .ok c ↔ a * b = c ∧ c < limit := by
  unfold mul
  split <;> simp <;> omega

theorem rem_eq_ok_iff {a b c : Nat} : rem a b = .ok c ↔ b ≠ 0 ∧ a % b = c := by
  unfold rem
  split <;> simp [*]

theorem mul_eq_error_iff {a b : Nat} {breach : Breach} :
    mul a b = .error breach ↔ breach = .overflow .multiply ∧ limit ≤ a * b := by
  unfold mul
  split <;> simp [eq_comm] <;> omega

theorem rem_eq_error_iff {a b : Nat} {breach : Breach} :
    rem a b = .error breach ↔ breach = .zeroDivisor ∧ b = 0 := by
  unfold rem
  split <;> simp [*, eq_comm]

theorem reserve_eq_ok_iff {entries entryBytes : Nat} :
    reserve entries entryBytes = .ok () ↔ entries * entryBytes < 0x8000000000000000 := by
  unfold reserve
  split <;> simp [*]

theorem twoPow_eq_ok_iff {n c : Nat} : twoPow n = .ok c ↔ n < 64 ∧ 1 <<< n = c := by
  unfold twoPow
  split <;> simp [*]

end Machine

end EV6
