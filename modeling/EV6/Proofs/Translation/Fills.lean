import EV6.Proofs.Translation.Requests

namespace EV6.TranslationBuffer

variable {t t' : TranslationBuffer} {size k : Nat} {va : Word} {asn : Byte} {e : PageEntry}
  {r : Request}

inductive Reached (size : Nat) : TranslationBuffer → Prop where
  | start : Reached size (ofSize size)
  | serve (r : Request) {t t' : TranslationBuffer} :
      Reached size t → t.serve r = .ok t' → Reached size t'
  | recordMiss (va : Word) {t : TranslationBuffer} : Reached size t → Reached size (t.recordMiss va)
  | clearMiss {t : TranslationBuffer} : Reached size t → Reached size t.clearMiss

theorem Reached.intact (h : Reached size t) (hsize : 0 < size) : t.Intact := by
  induction h with
  | start => exact .ofSize hsize
  | serve r _ ht ih => exact ih.serve ht
  | recordMiss va _ ih => exact ih.recordMiss va
  | clearMiss _ ih => exact ih.clearMiss

theorem Reached.capacity (h : Reached size t) : t.capacity = size := by
  induction h with
  | start => exact List.length_replicate
  | serve r _ ht ih => exact (capacity_serve ht).trans ih
  | recordMiss va _ ih => exact ih
  | clearMiss _ ih => exact ih

theorem Intact.capacity_pos (h : t.Intact) : 0 < t.capacity := Nat.zero_lt_of_lt h.next

def Misses (t : TranslationBuffer) (va : Word) (asn : Byte) : Prop :=
  ∀ i e, t.Holds i e → e.matchesAddress va asn = false

def Full (t : TranslationBuffer) : Prop := ∀ i < t.capacity, ∃ e, t.Holds i e

inductive Takes (t : TranslationBuffer) (va : Word) (asn : Byte) : Nat → Prop where
  | shadowed {k : Nat} {e : PageEntry} : t.Holds k e → e.matchesAddress va asn = true →
      t.FirstAt va asn k → Takes t va asn k
  | empty {k : Nat} : t.Misses va asn → t.slots[k]? = some none →
      (∀ i < k, ∃ e, t.Holds i e) → Takes t va asn k
  | rotated : t.Misses va asn → t.Full → Takes t va asn t.next

theorem misses_of_findIdx (h : t.slots.findIdx? (matchesSlot va asn) = none) :
    t.Misses va asn := by
  intro i e he
  exact not_matchesSlot_iff.mp (List.findIdx?_eq_none_iff.mp h _ (mem_slots_iff.mpr ⟨i, he⟩)) e rfl

theorem holds_of_not_isNone {i : Nat} (hi : i < t.slots.length)
    (h : t.slots[i].isNone = false) : ∃ e, t.Holds i e := by
  obtain ⟨e, he⟩ := Option.isSome_iff_exists.mp (Option.isNone_eq_false_iff.mp h)
  exact ⟨e, List.getElem?_eq_some_iff.mpr ⟨hi, he⟩⟩

theorem takes_fillSlot (t : TranslationBuffer) (va : Word) (asn : Byte) :
    t.Takes va asn (t.fillSlot va asn) := by
  have hfirst := firstAt_fillSlot t va asn
  unfold fillSlot at hfirst ⊢
  cases hmatch : t.slots.findIdx? (matchesSlot va asn) with
  | some k =>
    rw [hmatch] at hfirst
    obtain ⟨hk, hslot, -⟩ := List.findIdx?_eq_some_iff_getElem.mp hmatch
    obtain ⟨e, he, hmatches⟩ := matchesSlot_iff.mp hslot
    exact .shadowed (List.getElem?_eq_some_iff.mpr ⟨hk, he⟩) hmatches hfirst
  | none =>
    have hmiss := misses_of_findIdx hmatch
    cases hfree : t.slots.findIdx? Option.isNone with
    | some k =>
      obtain ⟨hk, hslot, hbefore⟩ := List.findIdx?_eq_some_iff_getElem.mp hfree
      refine .empty hmiss (List.getElem?_eq_some_iff.mpr ⟨hk, ?_⟩) fun i hi => ?_
      · exact Option.isNone_iff_eq_none.mp hslot
      · exact holds_of_not_isNone (Nat.lt_trans hi hk) (Bool.eq_false_iff.mpr (hbefore i hi))
    | none =>
      refine .rotated hmiss fun i hi => holds_of_not_isNone hi ?_
      exact List.findIdx?_eq_none_iff.mp hfree _ (List.getElem_mem hi)

theorem Takes.overwrites (h : t.Takes va asn k) (hold : t.Holds k e)
    (hother : e.matchesAddress va asn = false) : t.Misses va asn ∧ t.Full := by
  unfold Holds at hold
  cases h with
  | shadowed hslot hmatches =>
    obtain rfl : e = _ := Option.some.inj (Option.some.inj (hold.symm.trans hslot))
    exact absurd hmatches (Bool.eq_false_iff.mp hother)
  | empty _ hfree => exact absurd (hold.symm.trans hfree) nofun
  | rotated hmiss hfull => exact ⟨hmiss, hfull⟩

structure Loaded (l : PageLoad) (k : Nat) (t t' : TranslationBuffer) : Prop where
  takes : t.Takes l.va l.asn k
  overwrites : ∀ e, t.Holds k e → e.matchesAddress l.va l.asn = false →
    t.Misses l.va l.asn ∧ t.Full
  holds : t'.Holds k l.entry
  others : ∀ i, i ≠ k → t'.slots[i]? = t.slots[i]?
  found : t'.lookup l.va l.asn = some l.entry
  serviced : t'.pending = none
  next : t'.next < t'.capacity
  capacity : t'.capacity = t.capacity

theorem Intact.loaded (h : t.Intact) (l : PageLoad) :
    Loaded l (t.fillSlot l.va l.asn) t (t.insert l.va l.pte l.asn) where
  takes := takes_fillSlot t l.va l.asn
  overwrites _ hold hother := (takes_fillSlot t l.va l.asn).overwrites hold hother
  holds := holds_loaded h l
  others _ hi := List.getElem?_set_ne hi.symm
  found := lookup_insert h l
  serviced := rfl
  next := (h.insert l.va l.pte l.asn).next
  capacity := List.length_set

structure Dropped (p : PageEntry → Bool) (t t' : TranslationBuffer) : Prop where
  holds : ∀ i e, t'.Holds i e ↔ t.Holds i e ∧ p e = false
  next : t'.next = t.next
  pending : t'.pending = t.pending
  capacity : t'.capacity = t.capacity

theorem dropped_dropWhere (p : PageEntry → Bool) (t : TranslationBuffer) :
    Dropped p t (t.dropWhere p) where
  holds _ _ := holds_dropWhere
  next := rfl
  pending := rfl
  capacity := List.length_map _

def Request.Effect (t t' : TranslationBuffer) : Request → Prop
  | .load l => ∃ k, Loaded l k t t'
  | .invalidateAll => t' = ofSize t.capacity ∧ ∀ i e, ¬t'.Holds i e
  | .invalidateProcess => Dropped (!·.anySpace) t t'
  | .invalidateSingle va asn => Dropped (·.matchesAddress va asn) t t' ∧ t'.Misses va asn

theorem Intact.effect (h : t.Intact) (ht : t.serve r = .ok t') : r.Effect t t' := by
  cases r with
  | load l =>
    obtain ⟨-, rfl⟩ := serve_load.mp ht
    exact ⟨_, h.loaded l⟩
  | invalidateAll =>
    cases ht
    exact ⟨rfl, fun _ _ => not_holds_ofSize t.capacity⟩
  | invalidateProcess =>
    cases ht
    exact dropped_dropWhere _ t
  | invalidateSingle va asn =>
    cases ht
    exact ⟨dropped_dropWhere _ t, fun _ _ he => (holds_dropWhere.mp he).2⟩

theorem serves_with_effect (hsize : 0 < size) (h : Reached size t) (r : Request) :
    ∃ t', t.serve r = .ok t' ∧ t'.capacity = size ∧ r.Effect t t' := by
  have hintact := h.intact hsize
  obtain ⟨t', ht⟩ := serve_ok hintact.capacity_pos r
  exact ⟨t', ht, (h.serve r ht).capacity, hintact.effect ht⟩

def overlapping : TranslationBuffer :=
  (((ofSize 2).insert 0x2000 0x0000000100001101 1).insert 0 0x0000020000001171 2).recordMiss 0x4000

theorem reached_overlapping : Reached 2 overlapping := by
  have small := Reached.start.serve (.load ⟨0x2000, 0x0000000100001101, 1⟩)
    (serve_load.mpr ⟨(by decide : (ofSize 2).capacity ≠ 0), rfl⟩)
  have large := small.serve (.load ⟨0, 0x0000020000001171, 2⟩) (serve_load.mpr ⟨by decide, rfl⟩)
  exact large.recordMiss 0x4000

theorem overlapping_serves : 0 < 2 ∧ Reached 2 overlapping ∧
    overlapping.lookup 0x2000 2 = some (.ofPte 0 0x0000020000001171 2) ∧
    ∃ t', overlapping.serve (.load ⟨0x2000, 0x0000000200001101, 2⟩) = .ok t' ∧
      t'.capacity = 2 ∧ (Request.load ⟨0x2000, 0x0000000200001101, 2⟩).Effect overlapping t' :=
  ⟨by decide, reached_overlapping, by decide,
    serves_with_effect (by decide) reached_overlapping _⟩

end EV6.TranslationBuffer
