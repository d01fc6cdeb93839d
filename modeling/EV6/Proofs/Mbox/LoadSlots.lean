import EV6.Mbox.Basic

namespace EV6

namespace LoadQueue

variable {q q' : LoadQueue} {e : LoadEntry} {slot s : Nat}

theorem build_ok {capacity : Nat} (h : build capacity = .ok q) : q = ofSize capacity := by
  unfold build at h
  cases hr : Machine.reserve capacity LoadEntry.footprint with
  | error b =>
    rw [hr] at h
    cases h
  | ok u =>
    rw [hr] at h
    cases h
    rfl

theorem get_ofSize (capacity slot : Nat) : (ofSize capacity).get slot = none := by
  rw [get, ofSize, List.getElem?_replicate]
  split <;> rfl

theorem get_put (h : slot < q.slots.length) (e : LoadEntry) :
    (q.put slot e).get s = if slot = s then some e else q.get s := by
  simp only [get, put, List.getElem?_set, h]
  split <;> rfl

theorem get_free (q : LoadQueue) (slot : Nat) :
    (q.free slot).get s = if slot = s then none else q.get s := by
  rw [get, free, List.getElem?_set]
  split
  · split <;> rfl
  · rfl

theorem get_modify (q : LoadQueue) (slot : Nat) (f : LoadEntry → LoadEntry) :
    (q.modify slot f).get s = if slot = s then (q.get s).map f else q.get s := by
  simp only [get, modify, List.getElem?_modify]
  cases hs : q.slots[s]? with
  | none =>
    split <;> rfl
  | some entry =>
    split <;> rfl

theorem free_put (h : slot < q.slots.length) (hfree : q.get slot = none) (e : LoadEntry) :
    (q.put slot e).free slot = q := by
  have hslot : q.slots[slot] = none := by
    rw [get, List.getElem?_eq_getElem h] at hfree
    exact hfree
  have hslots : (q.slots.set slot (some e)).set slot none = q.slots := by
    rw [List.set_set, ← hslot, List.set_getElem_self]
  rw [put, free, hslots, Nat.add_sub_cancel]

theorem get_modify_put (h : slot < q.slots.length) (e : LoadEntry) (f : LoadEntry → LoadEntry) :
    ((q.put slot e).modify slot f).get s = if slot = s then some (f e) else q.get s := by
  rw [get_modify, get_put h]
  split <;> rfl

theorem get_squash (q : LoadQueue) (seq : Nat) :
    (q.squash seq).2.get s = (q.get s).filter (·.seq < seq) := by
  simp only [get, squash, List.getElem?_map]
  cases hs : q.slots[s]? with
  | none => rfl
  | some entry =>
    cases entry with
    | none => rfl
    | some e =>
      by_cases hseq : seq ≤ e.seq
      · simp [isYounger, Option.filter_some, hseq, Nat.not_lt.mpr hseq]
      · simp [isYounger, Option.filter_some, hseq, Nat.lt_of_not_le hseq]

def HasRoom (q : LoadQueue) : Prop := ∃ slot : Nat, q.slots[slot]? = some none

theorem allocate_ok (h : q.allocate e = .ok (slot, q')) :
    slot < q.slots.length ∧ q.get slot = none ∧ q' = q.put slot e := by
  unfold allocate freeSlot at h
  split at h
  · rename_i free hfree
    cases h
    obtain ⟨hlt, hnone, -⟩ := List.findIdx?_eq_some_iff_getElem.mp hfree
    refine ⟨hlt, ?_, rfl⟩
    rw [get, List.getElem?_eq_getElem hlt, Option.isNone_iff_eq_none.mp hnone]
    rfl
  · cases h

theorem not_hasRoom_of_allocate {b : Breach} (h : q.allocate e = .error b) : ¬q.HasRoom := by
  unfold allocate freeSlot at h
  split at h
  · cases h
  · rename_i hnone
    rintro ⟨slot, hslot⟩
    have hbusy := List.findIdx?_eq_none_iff.mp hnone none (List.mem_of_getElem? hslot)
    cases hbusy

theorem release_ok (h : q.get slot = some e) : q.release slot = .ok (e, q.free slot) := by
  rw [release, h]

end LoadQueue

namespace Mbox

variable {q : LoadQueue} {i j : Instruction} {polls n : Nat}

def Delivers (polls : Nat) (q : LoadQueue) (i j : Instruction) : Prop :=
  ∃ slot e, i.slot = some slot ∧ q.get slot = some e ∧ e.seq = i.seq ∧ e.readyAt ≤ polls ∧
    j = i.delivered e.raw

theorem deliver_eq_some {q' : LoadQueue} (h : deliver polls q i = some (j, q')) :
    Delivers polls q i j ∧ ∃ slot, i.slot = some slot ∧ q' = q.free slot := by
  simp only [deliver, Option.bind_eq_bind, Option.bind_eq_some_iff, Bool.and_eq_true,
    decide_eq_true_eq, Option.ite_none_right_eq_some, Option.some.injEq, Prod.mk.injEq] at h
  obtain ⟨slot, hslot, e, he, ⟨hseq, hready⟩, rfl, rfl⟩ := h
  exact ⟨⟨slot, e, hslot, he, hseq, hready, rfl⟩, slot, hslot, rfl⟩

theorem Delivers.deliver (h : Delivers polls q i j) :
    ∃ q', Mbox.deliver polls q i = some (j, q') := by
  obtain ⟨slot, e, hslot, he, hseq, hready, rfl⟩ := h
  exact ⟨q.free slot, by simp [Mbox.deliver, hslot, he, hseq, hready]⟩

theorem Delivers.of_get {q' : LoadQueue} (h : Delivers polls q' i j)
    (hget : ∀ slot e, q'.get slot = some e → q.get slot = some e) : Delivers polls q i j := by
  obtain ⟨slot, e, hslot, he, hrest⟩ := h
  exact ⟨slot, e, hslot, hget slot e he, hrest⟩

theorem get_of_get_free {slot s : Nat} {e : LoadEntry} (h : (q.free slot).get s = some e) :
    q.get s = some e := by
  rw [LoadQueue.get_free] at h
  split at h
  · cases h
  · exact h

theorem deliverAll_length (polls : Nat) (q : LoadQueue) (pending : List Instruction) :
    (deliverAll polls q pending).instructions.length = pending.length := by
  induction pending generalizing q with
  | nil => rfl
  | cons i pending ih =>
    rw [deliverAll]
    split <;> simp [ih]

theorem get_of_deliverAll {pending : List Instruction} {slot : Nat} {e : LoadEntry}
    (h : (deliverAll polls q pending).loads.get slot = some e) : q.get slot = some e := by
  induction pending generalizing q with
  | nil => exact h
  | cons i pending ih =>
    rw [deliverAll] at h
    split at h
    · rename_i j q' hdeliver
      obtain ⟨-, s, -, rfl⟩ := deliver_eq_some hdeliver
      exact get_of_get_free (ih h)
    · exact ih h

theorem get_deliverAll {pending : List Instruction} {slot : Nat}
    (h : ∀ k ∈ pending, k.slot ≠ some slot) :
    (deliverAll polls q pending).loads.get slot = q.get slot := by
  induction pending generalizing q with
  | nil => rfl
  | cons i pending ih =>
    have hrest := fun k hk => h k (List.mem_cons_of_mem _ hk)
    rw [deliverAll]
    split
    · rename_i j q' hdeliver
      obtain ⟨-, s, hs, rfl⟩ := deliver_eq_some hdeliver
      have hne : s ≠ slot := by
        rintro rfl
        exact h i List.mem_cons_self hs
      exact (ih hrest).trans ((LoadQueue.get_free q s).trans (if_neg hne))
    · exact ih hrest

theorem deliverAll_delivers {front back : List Instruction} (h : ∀ k ∈ front, k.slot ≠ i.slot)
    (hi : Delivers polls q i j) :
    (deliverAll polls q (front ++ i :: back)).instructions[front.length]? = some j := by
  induction front generalizing q with
  | nil =>
    obtain ⟨q', hdeliver⟩ := hi.deliver
    rw [List.nil_append, deliverAll, hdeliver]
    rfl
  | cons k front ih =>
    have hrest := fun k hk => h k (List.mem_cons_of_mem _ hk)
    rw [List.cons_append, deliverAll]
    split
    · rename_i l q' hdeliver
      obtain ⟨-, s, hs, rfl⟩ := deliver_eq_some hdeliver
      refine ih hrest ?_
      obtain ⟨slot, e, hslot, he, hready⟩ := hi
      have hne : s ≠ slot := by
        rintro rfl
        exact h k List.mem_cons_self (hs.trans hslot.symm)
      exact ⟨slot, e, hslot, (LoadQueue.get_free q s).trans ((if_neg hne).trans he), hready⟩
    · exact ih hrest hi

theorem deliverAll_spec {pending : List Instruction} (hi : pending[n]? = some i)
    (hj : (deliverAll polls q pending).instructions[n]? = some j) :
    j = i ∨ Delivers polls q i j := by
  induction pending generalizing q n with
  | nil => cases hi
  | cons first pending ih =>
    rw [deliverAll] at hj
    split at hj
    · rename_i k q' hdeliver
      obtain ⟨hdelivers, s, -, rfl⟩ := deliver_eq_some hdeliver
      cases n with
      | zero =>
        obtain rfl : first = i := by simpa using hi
        obtain rfl : k = j := by simpa using hj
        exact .inr hdelivers
      | succ n =>
        refine (ih (by simpa using hi) (by simpa using hj)).imp_right ?_
        exact fun h => h.of_get fun _ _ => get_of_get_free
    · cases n with
      | zero =>
        obtain rfl : first = i := by simpa using hi
        exact .inl (by simpa using hj.symm)
      | succ n => exact ih (by simpa using hi) (by simpa using hj)

end Mbox

end EV6
