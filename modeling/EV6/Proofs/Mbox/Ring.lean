import EV6.Mbox.StoreQueue
import Mathlib.Data.List.DropRight

namespace EV6.StoreQueue

variable {q q' : StoreQueue} {es : List StoreEntry} {e : StoreEntry} {i j : Nat}

def place (q : StoreQueue) (i : Nat) : Nat := (q.head + i) % q.capacity

theorem place_lt (hpos : 0 < q.capacity) : q.place i < q.capacity := Nat.mod_lt _ hpos

theorem next_place : q.next (q.place i) = q.place (i + 1) := by
  rw [next, place, place, Nat.mod_add_mod, Nat.add_assoc]

theorem place_succ (q : StoreQueue) (i : Nat) :
    (q.next q.head + i) % q.capacity = q.place (i + 1) := by
  rw [next, Nat.mod_add_mod, place]
  congr 1
  omega

theorem place_eq (hh : q.head < q.capacity) (hi : i < q.capacity) :
    q.place i = if q.head + i < q.capacity then q.head + i else q.head + i - q.capacity := by
  unfold place
  split
  · exact Nat.mod_eq_of_lt ‹_›
  · rw [Nat.mod_eq_sub_mod (by omega), Nat.mod_eq_of_lt (by omega)]

theorem place_ne (hh : q.head < q.capacity) (hi : i < q.capacity) (hj : j < q.capacity)
    (h : i ≠ j) : q.place i ≠ q.place j := by
  rw [place_eq hh hi, place_eq hh hj]
  split <;> split <;> omega

theorem youngest_eq (hpos : 0 < q.capacity) (htail : q.tail = q.place (i + 1)) :
    q.youngest = q.place i := by
  have hsum : q.head + (i + 1) + (q.capacity - 1) = q.head + i + q.capacity := by omega
  rw [youngest, htail, place, Nat.add_sub_assoc hpos, Nat.mod_add_mod, hsum, Nat.add_mod_right,
    place]

structure Holds (q : StoreQueue) (es : List StoreEntry) : Prop where
  count : q.count = es.length
  room : es.length ≤ q.capacity
  head : q.head = q.place 0
  tail : q.tail = q.place es.length
  slots : ∀ i < es.length, q.slots.get (q.place i) = es[i]?

theorem build_ok {capacity : Nat} (h : build capacity = .ok q) : q = ofSize capacity := by
  unfold build at h
  cases hr : Machine.reserve capacity StoreEntry.footprint with
  | error b =>
    rw [hr] at h
    cases h
  | ok u =>
    rw [hr] at h
    cases h
    rfl

theorem holds_ofSize (capacity : Nat) : (ofSize capacity).Holds [] := by
  refine ⟨rfl, Nat.zero_le _, ?_, ?_, ?_⟩
  · simp [ofSize, place]
  · simp [ofSize, place]
  · intro i hi
    cases hi

section Sorted

variable {α : Type} (key : α → Nat) {xs : List α} (hsorted : xs.Pairwise fun a b => key a ≤ key b)
  (bound : Nat)

include hsorted

theorem rdropWhile_of_sorted : xs.rdropWhile (bound ≤ key ·) = xs.filter (key · < bound) := by
  induction xs using List.reverseRecOn with
  | nil => rfl
  | append_singleton front last ih =>
    obtain ⟨hfront, -, hlast⟩ := List.pairwise_append.mp hsorted
    by_cases hbound : bound ≤ key last
    · rw [List.rdropWhile_concat_pos _ _ _ (by simpa), ih hfront, List.filter_append]
      simp [Nat.not_lt.mpr hbound]
    · have hall : ∀ a ∈ front ++ [last], key a < bound := by
        intro a ha
        rcases List.mem_append.mp ha with ha | ha
        · have := hlast a ha last (List.mem_singleton.mpr rfl)
          omega
        · rw [List.mem_singleton.mp ha]
          omega
      rw [List.rdropWhile_concat_neg _ _ _ (by simpa using hbound),
        List.filter_eq_self.mpr fun a ha => decide_eq_true (hall a ha)]

theorem rtakeWhile_of_sorted : xs.rtakeWhile (bound ≤ key ·) = xs.filter (bound ≤ key ·) := by
  have hsplit : xs.rdropWhile (bound ≤ key ·) ++ xs.rtakeWhile (bound ≤ key ·) = xs :=
    List.rdropWhile_append_rtakeWhile
  have hkept : (xs.filter (key · < bound)).filter (bound ≤ key ·) = [] := by
    simp only [List.filter_filter, List.filter_eq_nil_iff]
    intro a _
    simp
  conv_rhs =>
    rw [← hsplit, rdropWhile_of_sorted key hsorted, List.filter_append, hkept, List.nil_append]
  exact (List.filter_eq_self.mpr fun _ => List.mem_rtakeWhile_imp).symm

end Sorted

namespace Holds

theorem head_lt (h : q.Holds es) (hpos : 0 < q.capacity) : q.head < q.capacity := by
  rw [h.head]
  exact place_lt hpos

theorem isFull (h : q.Holds es) : q.isFull = true ↔ es.length = q.capacity := by
  rw [StoreQueue.isFull, beq_iff_eq, h.count]

theorem oldest_nil (h : q.Holds []) : q.oldest = none := by
  simp [oldest, h.count]

theorem oldest_cons (h : q.Holds (e :: es)) : q.oldest = some q.head := by
  simp [oldest, h.count]

theorem allocate (h : q.Holds es) (hfull : ¬q.isFull = true) :
    ∃ q', q.allocate e = .ok (q.tail, q') ∧ q'.Holds (es ++ [e]) := by
  have hroom : es.length < q.capacity := by
    have := h.room
    rw [h.isFull] at hfull
    omega
  have hhead := h.head_lt (by omega)
  rw [StoreQueue.allocate, if_neg hfull]
  refine ⟨_, rfl, ?_, ?_, h.head, ?_, ?_⟩
  · simp [h.count]
  · simp
    omega
  · rw [List.length_append, List.length_singleton]
    exact (congrArg q.next h.tail).trans next_place
  · intro i hi
    rw [List.length_append, List.length_singleton] at hi
    change (q.slots.set q.tail (some e)).get (q.place i) = _
    rcases Nat.lt_or_eq_of_le (Nat.le_of_lt_succ hi) with hlt | heq
    · have hne : q.tail ≠ q.place i := by
        rw [h.tail]
        exact place_ne hhead hroom (by omega) (by omega)
      rw [Table.get_set_of_ne _ _ hne, h.slots i hlt, List.getElem?_append_left hlt]
    · subst heq
      rw [h.tail, Table.get_set_self]
      simp

theorem retire (h : q.Holds (e :: es)) :
    ∃ q', q.retire q.head = .ok (e, q') ∧ q'.Holds es := by
  have hroom : es.length + 1 ≤ q.capacity := h.room
  have hhead := h.head_lt (by omega)
  have hfirst := h.slots 0 (Nat.zero_lt_succ _)
  rw [← h.head] at hfirst
  have hget : q.get q.head = some e := by
    rw [get, if_pos hhead, hfirst]
    rfl
  rw [StoreQueue.retire, hget]
  simp only [if_true]
  refine ⟨_, rfl, ?_, ?_, ?_, ?_, ?_⟩
  · exact Nat.sub_eq_of_eq_add h.count
  · exact Nat.le_of_succ_le hroom
  · change q.next q.head = (q.next q.head + 0) % q.capacity
    rw [place_succ, ← next_place, ← h.head]
  · exact h.tail.trans (q.place_succ es.length).symm
  · intro i hi
    change (q.slots.set q.head none).get ((q.next q.head + i) % q.capacity) = es[i]?
    have hne : q.place 0 ≠ q.place (i + 1) := place_ne hhead (by omega) (by omega) (by omega)
    rw [place_succ, Table.get_set_of_ne _ _ (by rw [h.head]; exact hne)]
    exact h.slots (i + 1) (Nat.succ_lt_succ hi)

theorem youngest (h : q.Holds (es ++ [e])) :
    q.youngest = q.place es.length ∧ q.slots.get q.youngest = some e := by
  have hroom : es.length + 1 ≤ q.capacity := by simpa using h.room
  have htail : q.tail = q.place (es.length + 1) := by simpa using h.tail
  have hyoungest := youngest_eq (by omega) htail
  refine ⟨hyoungest, ?_⟩
  rw [hyoungest, h.slots es.length (by simp)]
  simp

theorem dropYoungest (h : q.Holds (es ++ [e])) : q.dropYoungest.Holds es := by
  obtain ⟨hyoungest, -⟩ := h.youngest
  have hroom : es.length + 1 ≤ q.capacity := by simpa using h.room
  have hhead := h.head_lt (by omega)
  refine ⟨?_, Nat.le_of_succ_le hroom, h.head, hyoungest, ?_⟩
  · refine Nat.sub_eq_of_eq_add (h.count.trans ?_)
    simp
  · intro i hi
    change (q.slots.set q.youngest none).get (q.place i) = es[i]?
    have hne : q.place es.length ≠ q.place i := place_ne hhead (by omega) (by omega) (by omega)
    rw [Table.get_set_of_ne _ _ (by rw [hyoungest]; exact hne), h.slots i (by simp; omega),
      List.getElem?_append_left hi]

theorem slotsFrom (h : q.Holds es) {n : Nat} (hn : i + n = es.length) :
    (q.slotsFrom (q.place i) n).filterMap q.slots.get = es.drop i := by
  induction n generalizing i with
  | zero =>
    rw [StoreQueue.slotsFrom, List.filterMap_nil, List.drop_eq_nil_of_le (by omega)]
  | succ n ih =>
    have hi : i < es.length := by omega
    have hslot : q.slots.get (q.place i) = some es[i] := by
      rw [h.slots i hi, List.getElem?_eq_getElem hi]
    rw [StoreQueue.slotsFrom, next_place, List.filterMap_cons_some hslot, ih (by omega),
      ← List.drop_eq_getElem_cons hi]

theorem entries (h : q.Holds es) : q.entries = es := by
  rw [StoreQueue.entries, h.head, h.count]
  exact h.slotsFrom (Nat.zero_add _)

theorem squash_invariant {P : StoreQueue → List StoreEntry → Prop}
    (hholds : ∀ q es, P q es → q.Holds es)
    (hdrop : ∀ q es e, P q (es ++ [e]) → P q.dropYoungest es) (seq : Nat) (h : P q es) :
    (q.squash seq).1 = (es.rtakeWhile (seq ≤ ·.seq)).length ∧
      P (q.squash seq).2 (es.rdropWhile (seq ≤ ·.seq)) := by
  rw [StoreQueue.squash, (hholds q es h).count]
  induction hn : es.length generalizing es q with
  | zero =>
    rw [List.length_eq_zero_iff] at hn
    subst hn
    exact ⟨rfl, h⟩
  | succ n ih =>
    rcases List.eq_nil_or_concat es with rfl | ⟨front, last, rfl⟩
    · cases hn
    · rw [List.concat_eq_append] at *
      rw [StoreQueue.squashLoop, (hholds q _ h).youngest.2]
      by_cases hseq : seq ≤ last.seq
      · obtain ⟨hcount, hrest⟩ := ih (hdrop q front last h) (by simpa using hn)
        rw [List.rdropWhile_concat_pos _ _ _ (by simpa), List.rtakeWhile_concat_pos _ _ _ (by simpa)]
        simpa [hseq, hcount] using hrest
      · rw [List.rdropWhile_concat_neg _ _ _ (by simpa using hseq),
          List.rtakeWhile_concat_neg _ _ _ (by simpa using hseq)]
        simpa [hseq] using h

theorem squash (h : q.Holds es) (hsorted : es.Pairwise fun a b => a.seq < b.seq) (seq : Nat) :
    (q.squash seq).2.Holds (es.filter (·.seq < seq)) := by
  have hleft : es.rdropWhile (seq ≤ ·.seq) = es.filter (·.seq < seq) :=
    rdropWhile_of_sorted StoreEntry.seq (hsorted.imp Nat.le_of_lt) seq
  rw [← hleft]
  exact (squash_invariant (fun _ _ => id) (fun _ _ _ => dropYoungest) seq h).2

end Holds

end EV6.StoreQueue
