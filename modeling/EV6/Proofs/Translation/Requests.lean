import EV6.Proofs.Translation.Physical

namespace EV6

structure PageLoad where
  va : Word
  pte : Word
  asn : Byte
  deriving DecidableEq, Repr

def PageLoad.entry (l : PageLoad) : PageEntry := .ofPte l.va l.pte l.asn

theorem PageLoad.matches_self (l : PageLoad) : l.entry.matchesAddress l.va l.asn = true := by
  simp [entry, PageEntry.matchesAddress, PageEntry.ofPte]

theorem PageLoad.frame_lt (l : PageLoad) : l.entry.frame.toNat < 2 ^ 32 :=
  PageEntry.frame_ofPte l.va l.pte l.asn

namespace TranslationBuffer

inductive Request where
  | load (l : PageLoad)
  | invalidateAll
  | invalidateProcess
  | invalidateSingle (va : Word) (asn : Byte)
  deriving DecidableEq, Repr

def serve (t : TranslationBuffer) : Request → Except Breach TranslationBuffer
  | .load l => t.insert? l.va l.pte l.asn
  | .invalidateAll => .ok t.invalidateAll
  | .invalidateProcess => .ok t.invalidateProcess
  | .invalidateSingle va asn => .ok (t.invalidateSingle va asn)

def serveAll (t : TranslationBuffer) (requests : List Request) : Except Breach TranslationBuffer :=
  requests.foldlM serve t

def Holds (t : TranslationBuffer) (i : Nat) (e : PageEntry) : Prop := t.slots[i]? = some (some e)

variable {t t' : TranslationBuffer} {va pte : Word} {asn : Byte} {i k : Nat} {e : PageEntry}

theorem Holds.lt (h : t.Holds i e) : i < t.capacity := (List.getElem?_eq_some_iff.mp h).1

theorem mem_slots_iff : some e ∈ t.slots ↔ ∃ i, t.Holds i e := List.mem_iff_getElem?

theorem not_holds_ofSize (size : Nat) : ¬(ofSize size).Holds i e := by
  simp [Holds, ofSize, List.getElem?_replicate]

theorem holds_insert : (t.insert va pte asn).Holds i e ↔
    (i = t.fillSlot va asn ∧ i < t.capacity ∧ e = .ofPte va pte asn) ∨
      (i ≠ t.fillSlot va asn ∧ t.Holds i e) := by
  unfold Holds insert capacity
  rw [List.getElem?_set]
  grind

theorem holds_dropWhere {p : PageEntry → Bool} :
    (t.dropWhere p).Holds i e ↔ t.Holds i e ∧ p e = false := by
  simp [Holds, dropWhere, Option.filter_eq_some_iff, and_left_comm]

theorem serve_load {l : PageLoad} :
    t.serve (.load l) = .ok t' ↔ t.capacity ≠ 0 ∧ t' = t.insert l.va l.pte l.asn := by
  simp only [serve, insert?]
  split <;> simp_all [eq_comm]

theorem capacity_serve {r : Request} (h : t.serve r = .ok t') : t'.capacity = t.capacity := by
  cases r with
  | load l =>
    obtain ⟨-, rfl⟩ := serve_load.mp h
    simp [insert, capacity]
  | invalidateAll =>
    cases h
    simp [invalidateAll, ofSize, capacity]
  | invalidateProcess =>
    cases h
    simp [invalidateProcess, dropWhere, capacity]
  | invalidateSingle va asn =>
    cases h
    simp [invalidateSingle, dropWhere, capacity]

theorem Intact.serve {r : Request} (h : t.Intact) (ht : t.serve r = .ok t') : t'.Intact := by
  cases r with
  | load l =>
    obtain ⟨-, rfl⟩ := serve_load.mp ht
    exact h.insert l.va l.pte l.asn
  | invalidateAll =>
    cases ht
    exact h.invalidateAll
  | invalidateProcess =>
    cases ht
    exact h.dropWhere _
  | invalidateSingle va asn =>
    cases ht
    exact h.dropWhere _

theorem holds_serve {r : Request} (h : t.serve r = .ok t') (he : t'.Holds i e) :
    t.Holds i e ∨ ∃ l, r = .load l ∧ e = l.entry := by
  cases r with
  | load l =>
    obtain ⟨-, rfl⟩ := serve_load.mp h
    rcases holds_insert.mp he with ⟨-, -, rfl⟩ | ⟨-, he⟩
    · exact .inr ⟨l, rfl, rfl⟩
    · exact .inl he
  | invalidateAll =>
    cases h
    exact absurd he (not_holds_ofSize t.capacity)
  | invalidateProcess =>
    cases h
    exact .inl (holds_dropWhere.mp he).1
  | invalidateSingle va asn =>
    cases h
    exact .inl (holds_dropWhere.mp he).1

theorem serve_ok (h : 0 < t.capacity) (r : Request) : ∃ t', t.serve r = .ok t' := by
  cases r with
  | load l => exact ⟨_, serve_load.mpr ⟨Nat.ne_of_gt h, rfl⟩⟩
  | invalidateAll | invalidateProcess | invalidateSingle va asn => exact ⟨_, rfl⟩

theorem serveAll_cons {r : Request} {rs : List Request} (h : t.serveAll (r :: rs) = .ok t') :
    ∃ u, t.serve r = .ok u ∧ u.serveAll rs = .ok t' := by
  rw [serveAll, List.foldlM_cons] at h
  cases hu : t.serve r with
  | error b =>
    rw [hu] at h
    cases h
  | ok u =>
    rw [hu] at h
    exact ⟨u, rfl, h⟩

theorem serveAll_invariant (Inv : TranslationBuffer → Prop) {requests : List Request}
    (hstep : ∀ r ∈ requests, ∀ t t', Inv t → t.serve r = .ok t' → Inv t') (h : Inv t)
    (hrun : t.serveAll requests = .ok t') : Inv t' := by
  induction requests generalizing t with
  | nil =>
    cases hrun
    exact h
  | cons r rs ih =>
    obtain ⟨u, hu, hrest⟩ := serveAll_cons hrun
    exact ih (fun q hq => hstep q (List.mem_cons_of_mem r hq))
      (hstep r List.mem_cons_self t u h hu) hrest

theorem capacity_serveAll {requests : List Request} (h : t.serveAll requests = .ok t') :
    t'.capacity = t.capacity :=
  serveAll_invariant (fun u => u.capacity = t.capacity)
    (fun _ _ _ _ hu hs => (capacity_serve hs).trans hu) rfl h

theorem serveAll_ok (h : 0 < t.capacity) (requests : List Request) :
    ∃ t', t.serveAll requests = .ok t' := by
  induction requests generalizing t with
  | nil => exact ⟨t, rfl⟩
  | cons r rs ih =>
    obtain ⟨u, hu⟩ := serve_ok h r
    obtain ⟨t', ht'⟩ := ih ((capacity_serve hu).symm ▸ h)
    refine ⟨t', ?_⟩
    rw [serveAll, List.foldlM_cons, hu]
    exact ht'

theorem matchesSlot_some : matchesSlot va asn (some e) = e.matchesAddress va asn := rfl

theorem matchesSlot_iff {s : Option PageEntry} :
    matchesSlot va asn s = true ↔ ∃ e, s = some e ∧ e.matchesAddress va asn = true := by
  cases s <;> simp [matchesSlot]

theorem not_matchesSlot_iff {s : Option PageEntry} :
    matchesSlot va asn s = false ↔ ∀ e, s = some e → e.matchesAddress va asn = false := by
  cases s <;> simp [matchesSlot]

theorem lookup_eq_find (t : TranslationBuffer) (va : Word) (asn : Byte) :
    t.lookup va asn = (t.slots.find? (matchesSlot va asn)).bind id := by
  have hslot : (fun s : Option PageEntry => s.any (·.matchesAddress va asn)) =
      matchesSlot va asn := by
    funext s
    cases s <;> rfl
  rw [lookup, entries, List.find?_filterMap]
  exact congrArg (fun p => (t.slots.find? p).bind id) hslot

def FirstAt (t : TranslationBuffer) (va : Word) (asn : Byte) (k : Nat) : Prop :=
  ∀ j f, j < k → t.Holds j f → f.matchesAddress va asn = false

theorem lookup_eq_some_iff : t.lookup va asn = some e ↔
    ∃ i, t.Holds i e ∧ e.matchesAddress va asn = true ∧ t.FirstAt va asn i := by
  simp only [lookup_eq_find, Option.bind_eq_some_iff, id, exists_eq_right,
    List.find?_eq_some_iff_getElem, matchesSlot_some, Bool.not_eq_true', not_matchesSlot_iff]
  constructor
  · rintro ⟨hmatches, i, hi, hslot, hfirst⟩
    refine ⟨i, List.getElem?_eq_some_iff.mpr ⟨hi, hslot⟩, hmatches, fun j g hj hg => ?_⟩
    exact hfirst j hj g (List.getElem?_eq_some_iff.mp hg).2
  · rintro ⟨i, hi, hmatches, hfirst⟩
    obtain ⟨hlt, hslot⟩ := List.getElem?_eq_some_iff.mp hi
    refine ⟨hmatches, i, hlt, hslot, fun j hj g hg => ?_⟩
    exact hfirst j g hj (List.getElem?_eq_some_iff.mpr ⟨Nat.lt_trans hj hlt, hg⟩)

theorem lookup_eq_none_iff :
    t.lookup va asn = none ↔ ∀ i e, t.Holds i e → e.matchesAddress va asn = false := by
  simp only [lookup, List.find?_eq_none, entries, List.mem_filterMap, id, exists_eq_right,
    mem_slots_iff, Bool.not_eq_true]
  exact ⟨fun h i e he => h e ⟨i, he⟩, fun h e ⟨i, he⟩ => h i e he⟩

theorem fillSlot_lt (h : t.Intact) (va : Word) (asn : Byte) : t.fillSlot va asn < t.capacity := by
  unfold fillSlot capacity
  split
  · rename_i i hi
    exact (List.findIdx?_eq_some_iff_getElem.mp hi).1
  · cases hfree : t.slots.findIdx? Option.isNone with
    | none => exact h.next
    | some i => exact (List.findIdx?_eq_some_iff_getElem.mp hfree).1

theorem firstAt_fillSlot (t : TranslationBuffer) (va : Word) (asn : Byte) :
    t.FirstAt va asn (t.fillSlot va asn) := by
  intro j f hj hf
  obtain ⟨hlt, hslot⟩ := List.getElem?_eq_some_iff.mp hf
  unfold fillSlot at hj
  split at hj
  · rename_i i hi
    obtain ⟨_, _, hfirst⟩ := List.findIdx?_eq_some_iff_getElem.mp hi
    simpa [hslot, matchesSlot] using hfirst j hj
  · rename_i hnone
    simpa [matchesSlot] using List.findIdx?_eq_none_iff.mp hnone _ (hslot ▸ List.getElem_mem hlt)

theorem holds_loaded (h : t.Intact) (l : PageLoad) :
    (t.insert l.va l.pte l.asn).Holds (t.fillSlot l.va l.asn) l.entry :=
  holds_insert.mpr (.inl ⟨rfl, fillSlot_lt h _ _, rfl⟩)

theorem lookup_insert (h : t.Intact) (l : PageLoad) :
    (t.insert l.va l.pte l.asn).lookup l.va l.asn = some l.entry := by
  refine lookup_eq_some_iff.mpr ⟨_, holds_loaded h l, l.matches_self, fun j f hj hf => ?_⟩
  rcases holds_insert.mp hf with ⟨rfl, -, -⟩ | ⟨-, hf⟩
  · exact absurd hj (Nat.lt_irrefl _)
  · exact firstAt_fillSlot t _ _ j f hj hf

theorem fillSlot_matches (h : t.Holds i e) (hmatches : e.matchesAddress va asn = true) :
    ∃ f, t.Holds (t.fillSlot va asn) f ∧ f.matchesAddress va asn = true := by
  obtain ⟨hlt, hslot⟩ := List.getElem?_eq_some_iff.mp h
  unfold fillSlot
  split
  · rename_i k hk
    obtain ⟨hk, hmatch, -⟩ := List.findIdx?_eq_some_iff_getElem.mp hk
    obtain ⟨f, hf, hfmatches⟩ := matchesSlot_iff.mp hmatch
    exact ⟨f, List.getElem?_eq_some_iff.mpr ⟨hk, hf⟩, hfmatches⟩
  · rename_i hnone
    have hno := List.findIdx?_eq_none_iff.mp hnone _ (hslot ▸ List.getElem_mem hlt)
    rw [matchesSlot, hmatches] at hno
    cases hno

theorem fillSlot_ofSize {size : Nat} (h : 0 < size) (va : Word) (asn : Byte) :
    (ofSize size).fillSlot va asn = 0 := by
  simp [fillSlot, ofSize, matchesSlot, List.findIdx?_replicate, h]

theorem fillSlot_free (hmiss : ∀ i e, t.Holds i e → e.matchesAddress va asn = false)
    (hfree : t.slots[k]? = some none) : t.slots[t.fillSlot va asn]? = some none := by
  obtain ⟨hk, hslot⟩ := List.getElem?_eq_some_iff.mp hfree
  have hnone : t.slots.findIdx? (matchesSlot va asn) = none := by
    refine List.findIdx?_eq_none_iff.mpr fun s hs => not_matchesSlot_iff.mpr fun e he => ?_
    obtain ⟨i, hi⟩ := mem_slots_iff.mp (he ▸ hs)
    exact hmiss i e hi
  unfold fillSlot
  rw [hnone]
  cases hfirst : t.slots.findIdx? Option.isNone with
  | none =>
    have hno := List.findIdx?_eq_none_iff.mp hfirst _ (hslot ▸ List.getElem_mem hk)
    cases hno
  | some i =>
    obtain ⟨hi, hnone, -⟩ := List.findIdx?_eq_some_iff_getElem.mp hfirst
    exact List.getElem?_eq_some_iff.mpr ⟨hi, Option.isNone_iff_eq_none.mp hnone⟩

end TranslationBuffer

end EV6
