
namespace EV6

structure Counter (bits : Nat) where
  value : Nat
  deriving DecidableEq, Repr

namespace Counter

variable {bits : Nat}

def top (bits : Nat) : Nat := (1 <<< bits) - 1

def threshold (bits : Nat) : Nat := 1 <<< (bits - 1)

def clamp (value : Nat) : Counter bits := ⟨min value (top bits)⟩

def weaklyNotTaken : Counter bits := ⟨threshold bits - 1⟩

def taken (c : Counter bits) : Bool := threshold bits ≤ c.value

def increment (c : Counter bits) : Counter bits :=
  if c.value < top bits then ⟨c.value + 1⟩ else c

def decrement (c : Counter bits) : Counter bits := ⟨c.value - 1⟩

def update (c : Counter bits) (taken : Bool) : Counter bits :=
  if taken then c.increment else c.decrement

theorem update_le_top {c : Counter bits} (h : c.value ≤ top bits) (taken : Bool) :
    (c.update taken).value ≤ top bits := by
  unfold update increment decrement
  split
  · split
    · exact Nat.succ_le_of_lt ‹_›
    · exact h
  · exact Nat.le_trans (Nat.sub_le c.value 1) h

end Counter

end EV6
