import EV6.Proofs.Translation.Requests
import Mathlib.Data.Set.Basic
/-!
Entries that shadow each other. A load takes the slot of an entry that its own address finds. An
entry that overlaps the new one elsewhere, because its page is smaller or its address space is
another, stays beside it. So what never shadows is a matter of which loads are used together.
-/

namespace EV6

namespace PageEntry

variable {e f : PageEntry}

def Overlaps (e f : PageEntry) : Prop :=
  ∃ va asn, e.matchesAddress va asn = true ∧ f.matchesAddress va asn = true

theorem overlaps_comm : e.Overlaps f ↔ f.Overlaps e := by
  simp only [Overlaps, and_comm]

def coarser (g h : BitVec 2) : BitVec 2 := if g.toNat ≤ h.toNat then h else g

theorem tagOf_eq_of_le {va va' : Word} {g h : BitVec 2} (hle : g.toNat ≤ h.toNat)
    (htag : tagOf va g = tagOf va' g) : tagOf va h = tagOf va' h := by
  have hshift : shiftOf h = shiftOf g + 3 * (h.toNat - g.toNat) := by
    unfold shiftOf
    omega
  simp only [tagOf, hshift, BitVec.shiftRight_add] at htag ⊢
  rw [htag]

end PageEntry

namespace PageLoad

open PageEntry

variable {a b : PageLoad}

theorem matchesAddress_entry (l : PageLoad) (va : Word) (asn : Byte) :
    l.entry.matchesAddress va asn = true ↔
      (l.entry.anySpace = true ∨ l.asn = asn) ∧
        tagOf l.va l.entry.granularity = tagOf va l.entry.granularity := by
  simp [PageEntry.matchesAddress, entry, PageEntry.ofPte]

theorem overlaps_of_le (hle : a.entry.granularity.toNat ≤ b.entry.granularity.toNat) :
    a.entry.Overlaps b.entry ↔
      (a.entry.anySpace = true ∨ b.entry.anySpace = true ∨ a.asn = b.asn) ∧
        tagOf a.va b.entry.granularity = tagOf b.va b.entry.granularity := by
  constructor
  · rintro ⟨va, asn, ha, hb⟩
    rw [matchesAddress_entry] at ha hb
    refine ⟨?_, (tagOf_eq_of_le hle ha.2).trans hb.2.symm⟩
    rcases ha.1 with hany | rfl
    · exact .inl hany
    · exact .inr (hb.1.imp_right Eq.symm)
  · rintro ⟨hspace, htag⟩
    have hmeet : ∃ asn, (a.entry.anySpace = true ∨ a.asn = asn) ∧
        (b.entry.anySpace = true ∨ b.asn = asn) := by
      rcases hspace with hany | hany | heq
      · exact ⟨b.asn, .inl hany, .inr rfl⟩
      · exact ⟨a.asn, .inr rfl, .inl hany⟩
      · exact ⟨b.asn, .inr heq, .inr rfl⟩
    obtain ⟨asn, ha, hb⟩ := hmeet
    exact ⟨a.va, asn, (a.matchesAddress_entry _ _).mpr ⟨ha, rfl⟩,
      (b.matchesAddress_entry _ _).mpr ⟨hb, htag.symm⟩⟩

theorem overlaps_iff (a b : PageLoad) : a.entry.Overlaps b.entry ↔
    (a.entry.anySpace = true ∨ b.entry.anySpace = true ∨ a.asn = b.asn) ∧
      tagOf a.va (coarser a.entry.granularity b.entry.granularity) =
        tagOf b.va (coarser a.entry.granularity b.entry.granularity) := by
  unfold coarser
  split
  · exact overlaps_of_le ‹_›
  · rw [PageEntry.overlaps_comm, overlaps_of_le (Nat.le_of_not_le ‹_›), eq_comm (a := a.asn),
      eq_comm (a := tagOf a.va _), or_left_comm]

instance (a b : PageLoad) : Decidable (a.entry.Overlaps b.entry) :=
  decidable_of_iff _ (overlaps_iff a b).symm

theorem overlap_missed_iff (hover : a.entry.Overlaps b.entry) :
    a.entry.matchesAddress b.va b.asn = false ↔
      (a.entry.anySpace = false ∧ a.asn ≠ b.asn) ∨
        (a.entry.granularity.toNat < b.entry.granularity.toNat ∧
          tagOf a.va a.entry.granularity ≠ tagOf b.va a.entry.granularity) := by
  have htag : ¬a.entry.granularity.toNat < b.entry.granularity.toNat →
      tagOf a.va a.entry.granularity = tagOf b.va a.entry.granularity := by
    intro hle
    have := (overlaps_of_le (Nat.le_of_not_lt hle)).mp (PageEntry.overlaps_comm.mp hover)
    exact this.2.symm
  rw [← Bool.not_eq_true, matchesAddress_entry, not_and_or, not_or, Bool.not_eq_true]
  refine or_congr_right ⟨fun hne => ⟨?_, hne⟩, And.right⟩
  by_contra hle
  exact hne (htag hle)

end PageLoad

namespace TranslationBuffer

variable {t t' : TranslationBuffer} {l : PageLoad} {loads : Set PageLoad}
  {requests : List Request} {size : Nat}

def Unshadowed (t : TranslationBuffer) : Prop :=
  ∀ va asn i j e f, t.Holds i e → t.Holds j f → e.matchesAddress va asn = true →
    f.matchesAddress va asn = true → i = j

theorem Unshadowed.apart (h : t.Unshadowed) {i j : Nat} {e f : PageEntry} (he : t.Holds i e)
    (hf : t.Holds j f) (hover : e.Overlaps f) : i = j := by
  obtain ⟨va, asn, hme, hmf⟩ := hover
  exact h va asn i j e f he hf hme hmf

theorem unshadowed_of_capacity (h : t.capacity ≤ 1) : t.Unshadowed := by
  intro _ _ i j _ _ he hf _ _
  have hi := he.lt
  have hj := hf.lt
  omega

theorem unshadowed_ofSize (size : Nat) : (ofSize size).Unshadowed :=
  fun _ _ _ _ _ _ he => absurd he (not_holds_ofSize size)

theorem Unshadowed.dropWhere (h : t.Unshadowed) (p : PageEntry → Bool) :
    (t.dropWhere p).Unshadowed := by
  intro va asn i j e f he hf
  exact h va asn i j e f (holds_dropWhere.mp he).1 (holds_dropWhere.mp hf).1

theorem unshadowed_insert_iff (hi : t.Intact) (h : t.Unshadowed) :
    (t.insert l.va l.pte l.asn).Unshadowed ↔
      ∀ i e, t.Holds i e → e.Overlaps l.entry → i = t.fillSlot l.va l.asn := by
  constructor
  · intro hafter i e he hover
    by_contra hne
    exact hne (hafter.apart (holds_insert.mpr (.inr ⟨hne, he⟩)) (holds_loaded hi l) hover)
  · intro hreplaced va asn i j e f he hf hme hmf
    rcases holds_insert.mp he with ⟨rfl, -, rfl⟩ | ⟨hi, he⟩
    · rcases holds_insert.mp hf with ⟨rfl, -, -⟩ | ⟨-, hf⟩
      · rfl
      · exact (hreplaced j f hf ⟨va, asn, hmf, hme⟩).symm
    · rcases holds_insert.mp hf with ⟨rfl, -, rfl⟩ | ⟨-, hf⟩
      · exact hreplaced i e he ⟨va, asn, hme, hmf⟩
      · exact h va asn i j e f he hf hme hmf

/-- A later load replaces each earlier one that it overlaps. -/
def Compatible (loads : Set PageLoad) : Prop :=
  ∀ a ∈ loads, ∀ b ∈ loads, a.entry.Overlaps b.entry → a.entry.matchesAddress b.va b.asn = true

structure LoadedFrom (loads : Set PageLoad) (t : TranslationBuffer) : Prop where
  intact : t.Intact
  unshadowed : t.Unshadowed
  loaded : ∀ i e, t.Holds i e → ∃ l ∈ loads, e = l.entry

namespace LoadedFrom

theorem ofSize (hsize : 0 < size) (loads : Set PageLoad) : LoadedFrom loads (ofSize size) :=
  ⟨.ofSize hsize, unshadowed_ofSize size, fun _ _ he => absurd he (not_holds_ofSize size)⟩

theorem serve (h : LoadedFrom loads t) (hc : Compatible loads) {r : Request}
    (hr : ∀ l, r = .load l → l ∈ loads) (ht : t.serve r = .ok t') : LoadedFrom loads t' where
  intact := h.intact.serve ht
  unshadowed := by
    cases r with
    | load l =>
      obtain ⟨-, rfl⟩ := serve_load.mp ht
      refine (unshadowed_insert_iff h.intact h.unshadowed).mpr fun i e he hover => ?_
      -- An entry that the load overlaps is found by its address, and no other entry is.
      obtain ⟨a, ha, rfl⟩ := h.loaded i e he
      have hmatches := hc a ha l (hr l rfl) hover
      obtain ⟨f, hf, hfmatches⟩ := fillSlot_matches he hmatches
      exact h.unshadowed l.va l.asn i _ _ f he hf hmatches hfmatches
    | invalidateAll =>
      cases ht
      exact unshadowed_ofSize _
    | invalidateProcess =>
      cases ht
      exact h.unshadowed.dropWhere _
    | invalidateSingle va asn =>
      cases ht
      exact h.unshadowed.dropWhere _
  loaded i e he := by
    rcases holds_serve ht he with he | ⟨l, rfl, rfl⟩
    · exact h.loaded i e he
    · exact ⟨l, hr l rfl, rfl⟩

end LoadedFrom

def LoadsOf (loads : Set PageLoad) (requests : List Request) : Prop :=
  ∀ l, .load l ∈ requests → l ∈ loads

theorem unshadowed_of_compatible (hc : Compatible loads) (hloads : LoadsOf loads requests)
    (hrun : (ofSize size).serveAll requests = .ok t) : t.Unshadowed := by
  rcases Nat.eq_zero_or_pos size with rfl | hsize
  · refine unshadowed_of_capacity ?_
    rw [capacity_serveAll hrun]
    exact Nat.zero_le 1
  · have hstep : ∀ r ∈ requests, ∀ t t', LoadedFrom loads t → t.serve r = .ok t' →
        LoadedFrom loads t' :=
      fun r hr t t' h ht => h.serve hc (fun l hl => hloads l (hl ▸ hr)) ht
    exact (serveAll_invariant _ hstep (.ofSize hsize loads) hrun).unshadowed

theorem compatible_of_alike (halike : ∀ a ∈ loads, ∀ b ∈ loads,
    a.entry.granularity = b.entry.granularity ∧ a.entry.anySpace = b.entry.anySpace) :
    Compatible loads := by
  intro a ha b hb hover
  obtain ⟨hsize, hany⟩ := halike a ha b hb
  by_contra hmiss
  rw [Bool.not_eq_true, PageLoad.overlap_missed_iff hover] at hmiss
  rcases hmiss with ⟨hparticular, hspaces⟩ | ⟨hlt, -⟩
  · have hshared := ((PageLoad.overlaps_iff a b).mp hover).1
    rw [← hany, hparticular] at hshared
    exact hspaces (by simpa using hshared)
  · exact absurd (hsize ▸ hlt) (Nat.lt_irrefl _)

theorem alike_never_shadow (halike : ∀ a ∈ loads, ∀ b ∈ loads,
    a.entry.granularity = b.entry.granularity ∧ a.entry.anySpace = b.entry.anySpace)
    (hloads : LoadsOf loads requests) (hrun : (ofSize size).serveAll requests = .ok t) :
    t.Unshadowed :=
  unshadowed_of_compatible (compatible_of_alike halike) hloads hrun

theorem shadowed_by_two (hsize : 2 ≤ size) {a b : PageLoad} (hover : a.entry.Overlaps b.entry)
    (hmiss : a.entry.matchesAddress b.va b.asn = false) :
    ∃ t, (ofSize size).serveAll [.load a, .load b] = .ok t ∧ ¬t.Unshadowed := by
  have hpos : 0 < size := Nat.lt_of_lt_of_le Nat.two_pos hsize
  have hcapacity : (ofSize size).capacity ≠ 0 := by simp [ofSize, capacity]; omega
  let u := (ofSize size).insert a.va a.pte a.asn
  have hu : (ofSize size).serve (.load a) = .ok u := serve_load.mpr ⟨hcapacity, rfl⟩
  have hv : u.serve (.load b) = .ok (u.insert b.va b.pte b.asn) :=
    serve_load.mpr ⟨capacity_serve hu ▸ hcapacity, rfl⟩
  have hintact : u.Intact := (Intact.ofSize hpos).serve hu
  have hold : u.Holds 0 a.entry := fillSlot_ofSize hpos a.va a.asn ▸ holds_loaded (.ofSize hpos) a
  have hfree : u.slots[1]? = some none := by
    change ((ofSize size).slots.set ((ofSize size).fillSlot a.va a.asn) _)[1]? = _
    rw [fillSlot_ofSize hpos, List.getElem?_set_ne Nat.zero_ne_one]
    exact List.getElem?_replicate_of_lt hsize
  have hmisses : ∀ i e, u.Holds i e → e.matchesAddress b.va b.asn = false := by
    intro i e he
    rcases holds_insert.mp he with ⟨-, -, rfl⟩ | ⟨-, he⟩
    · exact hmiss
    · exact absurd he (not_holds_ofSize size)
  -- The second load does not find the first, so it takes a slot that is still free.
  have hne : 0 ≠ u.fillSlot b.va b.asn := by
    intro heq
    have hslot := fillSlot_free hmisses hfree
    rw [← heq, hold] at hslot
    cases hslot
  refine ⟨u.insert b.va b.pte b.asn, ?_, fun hafter => ?_⟩
  · simp only [serveAll, List.foldlM_cons, List.foldlM_nil, hu, hv, bind, Except.bind, pure,
      Except.pure]
  · exact hne (hafter.apart (holds_insert.mpr (.inr ⟨hne, hold⟩)) (holds_loaded hintact b) hover)

theorem never_shadows_iff (size : Nat) (loads : Set PageLoad) :
    (∀ requests, 0 < size → ∃ t, (ofSize size).serveAll requests = .ok t) ∧
    ((∀ requests t, LoadsOf loads requests → (ofSize size).serveAll requests = .ok t →
        t.Unshadowed) ↔ size ≤ 1 ∨ Compatible loads) ∧
    ∀ requests t l t', (ofSize size).serveAll requests = .ok t → t.serve (.load l) = .ok t' →
      t'.lookup l.va l.asn = some l.entry := by
  have hcapacity : (ofSize size).capacity = size := by simp [ofSize, capacity]
  refine ⟨fun requests hsize => serveAll_ok (hcapacity.symm ▸ hsize) requests, ⟨?_, ?_⟩, ?_⟩
  · intro hall
    by_contra hnot
    rw [not_or, Nat.not_le] at hnot
    obtain ⟨hsize, hincompatible⟩ := hnot
    simp only [Compatible, not_forall, Bool.not_eq_true] at hincompatible
    obtain ⟨a, ha, b, hb, hover, hmiss⟩ := hincompatible
    obtain ⟨t, hrun, hshadowed⟩ := shadowed_by_two hsize hover hmiss
    refine hshadowed (hall _ t (fun l hl => ?_) hrun)
    simp only [List.mem_cons, Request.load.injEq, List.not_mem_nil, or_false] at hl
    rcases hl with rfl | rfl
    · exact ha
    · exact hb
  · rintro (hsize | hc) requests t hloads hrun
    · exact unshadowed_of_capacity ((capacity_serveAll hrun).trans hcapacity ▸ hsize)
    · exact unshadowed_of_compatible hc hloads hrun
  · intro requests t l t' hrun ht
    obtain ⟨hne, rfl⟩ := serve_load.mp ht
    rw [capacity_serveAll hrun, hcapacity] at hne
    exact lookup_insert (serveAll_invariant Intact (fun _ _ _ _ h => h.serve)
      (Intact.ofSize (Nat.pos_of_ne_zero hne)) hrun) l

def smallPage : PageLoad := ⟨0x2000, 0x0000000100001101, 1⟩

def largePage : PageLoad := ⟨0, 0x0000020000001161, 1⟩

theorem largePage_shadows :
    (∃ requests t, LoadsOf {smallPage, largePage} requests ∧
      (ofSize 4).serveAll requests = .ok t ∧ ¬t.Unshadowed) ∧
    ∃ t, (ofSize 4).serveAll [.load smallPage, .load largePage] = .ok t ∧
      largePage.entry ∈ t.entries ∧ largePage.entry.matchesAddress 0x2000 1 = true ∧
      t.lookup 0x2000 1 = some smallPage.entry := by
  refine ⟨?_, _, rfl, by decide, by decide, by decide⟩
  by_contra hnone
  push Not at hnone
  rcases (never_shadows_iff 4 {smallPage, largePage}).2.1.mp hnone with hsize | hc
  · exact absurd hsize (by decide)
  · have hmatches := hc smallPage (.inl rfl) largePage (.inr rfl) (by decide)
    exact absurd hmatches (by decide)

end TranslationBuffer

end EV6
