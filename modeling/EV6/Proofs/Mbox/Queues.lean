import EV6.Proofs.Mbox.LoadSlots
import EV6.Proofs.Mbox.Ring

namespace EV6

namespace LoadQueue

variable {q q' : LoadQueue} {e : LoadEntry} {slot : Nat}

def Counted (q : LoadQueue) : Prop := q.count = q.slots.countP Option.isSome

theorem counted_ofSize (capacity : Nat) : (ofSize capacity).Counted := by
  simp [Counted, ofSize, List.countP_replicate]

theorem Counted.put (h : q.Counted) (hslot : slot < q.slots.length) (hfree : q.get slot = none)
    (e : LoadEntry) : (q.put slot e).Counted := by
  have hnone : q.slots[slot] = none := by
    rw [get, List.getElem?_eq_getElem hslot] at hfree
    exact hfree
  simp [Counted, LoadQueue.put, List.countP_set, hslot, hnone, h.symm]

theorem lt_of_get (hget : q.get slot = some e) :
    ∃ hslot : slot < q.slots.length, q.slots[slot] = some e := by
  rw [get, Option.join_eq_some_iff] at hget
  exact List.getElem?_eq_some_iff.mp hget

theorem Counted.free (h : q.Counted) (hget : q.get slot = some e) : (q.free slot).Counted := by
  obtain ⟨hslot, hsome⟩ := lt_of_get hget
  simp [Counted, LoadQueue.free, List.countP_set, hslot, hsome, h.symm]

theorem Counted.count_pos (h : q.Counted) (hget : q.get slot = some e) : 0 < q.count := by
  obtain ⟨hslot, hsome⟩ := lt_of_get hget
  rw [h, List.countP_pos_iff]
  exact ⟨_, List.getElem_mem hslot, by rw [hsome]; rfl⟩

theorem Counted.modify (h : q.Counted) (slot : Nat) (f : LoadEntry → LoadEntry) :
    (q.modify slot f).Counted := by
  have htaken : (q.modify slot f).slots.map Option.isSome = q.slots.map Option.isSome := by
    refine List.ext_getElem? fun i => ?_
    simp only [LoadQueue.modify, List.getElem?_map, List.getElem?_modify]
    cases q.slots[i]? with
    | none => rfl
    | some s => by_cases hi : slot = i <;> simp [hi]
  have hcount := congrArg (List.countP id) htaken
  rw [List.countP_map, List.countP_map] at hcount
  exact h.trans hcount.symm

theorem Counted.squash (h : q.Counted) (seq : Nat) : (q.squash seq).2.Counted := by
  have hsplit (slots : List (Option LoadEntry)) :
      (slots.map fun s => if isYounger seq s then none else s).countP Option.isSome +
        slots.countP (isYounger seq) = slots.countP Option.isSome := by
    induction slots with
    | nil => rfl
    | cons s slots ih =>
      simp only [List.map_cons, List.countP_cons, ← ih]
      cases s with
      | none => simp [isYounger]
      | some e =>
        by_cases hseq : seq ≤ e.seq
        · simp [isYounger, hseq]
          omega
        · simp [isYounger, hseq]
          omega
  have hq := hsplit q.slots
  rw [← h] at hq
  exact Nat.sub_eq_of_eq_add hq.symm

end LoadQueue

namespace StoreQueue

variable {q q' : StoreQueue} {es : List StoreEntry} {e : StoreEntry} {slot : Nat}

structure HoldsOnly (q : StoreQueue) (es : List StoreEntry) : Prop extends Holds q es where
  pos : 0 < q.capacity
  vacant : ∀ slot, (∀ i < es.length, q.place i ≠ slot) → q.slots.get slot = none

theorem holdsOnly_ofSize {capacity : Nat} (hpos : 0 < capacity) : (ofSize capacity).HoldsOnly [] :=
  ⟨holds_ofSize capacity, hpos, fun _ _ => Table.get_ofBlank _ _⟩

theorem allocate_ok (h : q.allocate e = .ok (slot, q')) :
    ¬q.isFull = true ∧ slot = q.tail ∧ q' =
      { q with slots := q.slots.set q.tail (some e), tail := q.next q.tail, count := q.count + 1 } := by
  unfold StoreQueue.allocate at h
  split at h
  · cases h
  · cases h
    exact ⟨‹_›, rfl, rfl⟩

theorem retire_ok (h : q.retire slot = .ok (e, q')) :
    slot = q.head ∧ q.slots.get q.head = some e ∧ q' =
      { q with slots := q.slots.set q.head none, head := q.next q.head, count := q.count - 1 } := by
  unfold StoreQueue.retire StoreQueue.get at h
  split at h
  · rename_i entry hentry
    split at h
    · rename_i hslot
      cases h
      subst hslot
      exact ⟨rfl, (Option.ite_none_right_eq_some.mp hentry).2, rfl⟩
    · cases h
  · cases h

namespace HoldsOnly

theorem allocate (h : q.HoldsOnly es) (ha : q.allocate e = .ok (slot, q')) :
    q'.HoldsOnly (es ++ [e]) := by
  obtain ⟨hroom, -, rfl⟩ := allocate_ok ha
  obtain ⟨_, heq, hholds⟩ := h.toHolds.allocate (e := e) hroom
  cases ha.symm.trans heq
  refine ⟨hholds, h.pos, fun slot hslot => ?_⟩
  rw [List.length_append, List.length_singleton] at hslot
  have htail : q.tail ≠ slot := h.tail ▸ hslot es.length (Nat.lt_succ_self _)
  change (q.slots.set q.tail (some e)).get slot = none
  rw [Table.get_set_of_ne _ _ htail]
  exact h.vacant slot fun i hi => hslot i (Nat.lt_succ_of_lt hi)

theorem retire (h : q.HoldsOnly es) (hr : q.retire slot = .ok (e, q')) :
    ∃ rest, es = e :: rest ∧ q'.HoldsOnly rest := by
  obtain ⟨rfl, hsome, rfl⟩ := retire_ok hr
  cases es with
  | nil =>
    rw [h.vacant q.head fun i hi => absurd hi (Nat.not_lt_zero i)] at hsome
    cases hsome
  | cons first rest =>
    obtain ⟨_, heq, hholds⟩ := h.toHolds.retire
    cases hr.symm.trans heq
    refine ⟨rest, rfl, hholds, h.pos, fun slot hslot => ?_⟩
    change (q.slots.set q.head none).get slot = none
    by_cases hne : q.head = slot
    · rw [hne, Table.get_set_self]
    · rw [Table.get_set_of_ne _ _ hne]
      refine h.vacant slot fun i hi => ?_
      cases i with
      | zero => exact h.head ▸ hne
      | succ i =>
        exact q.place_succ i ▸ hslot i (Nat.lt_of_succ_lt_succ hi)

theorem dropYoungest (h : q.HoldsOnly (es ++ [e])) : q.dropYoungest.HoldsOnly es := by
  refine ⟨h.toHolds.dropYoungest, h.pos, fun slot hslot => ?_⟩
  change (q.slots.set q.youngest none).get slot = none
  by_cases hne : q.youngest = slot
  · rw [hne, Table.get_set_self]
  · rw [Table.get_set_of_ne _ _ hne]
    refine h.vacant slot fun i hi => ?_
    rw [List.length_append, List.length_singleton] at hi
    rcases Nat.lt_or_eq_of_le (Nat.le_of_lt_succ hi) with hlt | rfl
    · exact hslot i hlt
    · exact h.toHolds.youngest.1 ▸ hne

theorem squash (h : q.HoldsOnly es) (seq : Nat) :
    (q.squash seq).2.HoldsOnly (es.rdropWhile (seq ≤ ·.seq)) :=
  (Holds.squash_invariant (fun _ _ => toHolds) (fun _ _ _ => dropYoungest) seq h).2

end HoldsOnly

end StoreQueue

end EV6
