import Std.Data.TreeMap

namespace EV6

structure Table (α : Type) where
  blank : α
  entries : Std.TreeMap Nat α

namespace Table

variable {α : Type}

def ofBlank (blank : α) : Table α := ⟨blank, ∅⟩

def get (t : Table α) (i : Nat) : α := t.entries.getD i t.blank

def set (t : Table α) (i : Nat) (a : α) : Table α := { t with entries := t.entries.insert i a }

@[simp] theorem get_ofBlank (blank : α) (i : Nat) : (ofBlank blank).get i = blank := by
  simp [get, ofBlank]

theorem get_set (t : Table α) (i j : Nat) (a : α) :
    (t.set i a).get j = if i = j then a else t.get j := by
  simp [get, set, Std.TreeMap.getD_insert]

@[simp] theorem get_set_self (t : Table α) (i : Nat) (a : α) : (t.set i a).get i = a := by
  simp [get_set]

theorem get_set_of_ne (t : Table α) {i j : Nat} (a : α) (h : i ≠ j) :
    (t.set i a).get j = t.get j := by
  simp [get_set, h]

def modify (t : Table α) (i : Nat) (f : α → α) : Table α := t.set i (f (t.get i))

theorem get_modify (t : Table α) (i j : Nat) (f : α → α) :
    (t.modify i f).get j = if i = j then f (t.get j) else t.get j := by
  by_cases h : i = j
  · simp [modify, h]
  · simp [modify, get_set, h]

def map {β : Type} (t : Table α) (f : α → β) : Table β :=
  ⟨f t.blank, t.entries.map fun _ a => f a⟩

theorem get_map {β : Type} (t : Table α) (f : α → β) (i : Nat) : (t.map f).get i = f (t.get i) := by
  simp [get, map, Std.TreeMap.getD_eq_getD_getElem?, Std.TreeMap.getElem?_map, Option.getD_map]

def total (t : Table α) (f : α → Nat) : Nat := t.entries.foldl (fun acc _ a => acc + f a) 0

end Table

end EV6
