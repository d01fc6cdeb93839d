import EV6.Proofs.Cache.Lines

namespace EV6

namespace CacheGeometry

variable {g : CacheGeometry} {set tag : Nat}

theorem toNat_lineAddress (hlt : (tag * g.sets + set) * g.lineBytes < Machine.limit) :
    (g.lineAddress set tag).toNat = (tag * g.sets + set) * g.lineBytes := by
  rw [lineAddress, BitVec.toNat_ofNat]
  exact Nat.mod_eq_of_lt hlt

theorem setOf_lineAddress (hpos : 0 < g.lineBytes) (hs : set < g.sets)
    (hlt : (tag * g.sets + set) * g.lineBytes < Machine.limit) :
    g.setOf (g.lineAddress set tag) = set := by
  rw [setOf, toNat_lineAddress hlt, Nat.mul_div_cancel _ hpos, place_mod hs]

theorem tagOf_lineAddress (hpos : 0 < g.lineBytes) (hs : set < g.sets)
    (hlt : (tag * g.sets + set) * g.lineBytes < Machine.limit) :
    g.tagOf (g.lineAddress set tag) = tag := by
  rw [tagOf_eq, toNat_lineAddress hlt, Nat.mul_div_cancel _ hpos, place_div hs]

theorem lineAddress_eq_lineBase (hline : LineSize g.lineBytes) (addr : Word) :
    g.lineAddress (g.setOf addr) (g.tagOf addr) = Address.lineBase addr g.lineBytes := by
  apply BitVec.eq_of_toNat_eq
  rw [lineAddress_setOf_tagOf, hline.toNat_lineBase]

theorem setOf_lineBase (hline : LineSize g.lineBytes) (addr : Word) :
    g.setOf (Address.lineBase addr g.lineBytes) = g.setOf addr := by
  rw [setOf, hline.lineBase_div, setOf]

theorem tagOf_lineBase (hline : LineSize g.lineBytes) (addr : Word) :
    g.tagOf (Address.lineBase addr g.lineBytes) = g.tagOf addr := by
  rw [tagOf_eq, hline.lineBase_div, tagOf_eq]

end CacheGeometry

namespace CacheSet

variable {s s' : CacheSet} {ways lineBytes tag way i j : Nat} {l l' d : CacheLine}
  {x : Option CacheLine}

theorem lineAt_put_ne (h : i ≠ way) : (s.put way x).lineAt i = s.lineAt i := by
  rw [put, lineAt, List.getElem?_set_ne (Ne.symm h), lineAt]

theorem lineAt_put_self (hw : way < s.lines.length) : (s.put way x).lineAt way = x :=
  (lineAt_put hw).trans (if_pos rfl)

theorem no_room_of_displaced (hd : s.displaced tag = some d) :
    s.wayOf tag = none ∧ s.lines.findIdx? Option.isNone = none := by
  obtain ⟨hslot, htag⟩ := displaced_eq_some_iff.mp hd
  cases hway : s.wayOf tag with
  | some way =>
    obtain ⟨l, hl, ht⟩ := lineAt_of_wayOf hway
    rw [fillWay, hway, hl] at hslot
    obtain rfl := Option.some.inj hslot
    exact absurd ht htag
  | none =>
    refine ⟨rfl, ?_⟩
    cases hfree : s.lines.findIdx? Option.isNone with
    | none => rfl
    | some i =>
      obtain ⟨hlt, hnone, -⟩ := List.findIdx?_eq_some_iff_getElem.mp hfree
      rw [fillWay, hway, hfree, Option.getD_some] at hslot
      have hslot := lineAt_eq_some hslot
      rw [List.getElem?_eq_getElem hlt, Option.some.injEq] at hslot
      rw [hslot] at hnone
      cases hnone

theorem fillWay_of_displaced (hd : s.displaced tag = some d) : s.fillWay tag = s.order.victim := by
  obtain ⟨hway, hfree⟩ := no_room_of_displaced hd
  rw [fillWay, hway, hfree, Option.getD_none]

namespace Sound

theorem way_eq (h : s.Sound ways lineBytes) (h' : s'.Sound ways lineBytes)
    (hsame : ∀ k, k ≠ way → s'.lineAt k = s.lineAt k) (hl : s.lineAt i = some l)
    (hl' : s'.lineAt j = some l') (ht : l.tag = l'.tag) : i = j := by
  by_cases hj : j = way
  · by_cases hi : i = way
    · rw [hi, hj]
    · exact h'.distinct i j l l' ((hsame i hi).trans hl) hl' ht
  · exact h.distinct i j l l' hl ((hsame j hj).symm.trans hl') ht

theorem nodup_tags (h : s.Sound ways lineBytes) : (s.held.map CacheLine.tag).Nodup := by
  rw [List.Nodup, List.pairwise_map, held, List.pairwise_filterMap, List.pairwise_iff_getElem]
  intro i j hi hj hij a ha b hb ht
  have hlineAt {k : Nat} {hk : k < s.lines.length} {e : CacheLine} (he : id s.lines[k] = some e) :
      s.lineAt k = some e := by
    rw [lineAt, List.getElem?_eq_getElem hk, ← he, Option.join_some, id]
  exact absurd (h.distinct i j a b (hlineAt ha) (hlineAt hb) ht) (Nat.ne_of_lt hij)

theorem length_held_le (h : s.Sound ways lineBytes) : s.held.length ≤ ways := by
  rw [← h.length]
  exact List.length_filterMap_le _ _

theorem full_of_displaced (h : s.Sound ways lineBytes) (hd : s.displaced tag = some d) :
    s.held.length = ways := by
  have hall := List.findIdx?_eq_none_iff.mp (no_room_of_displaced hd).2
  rw [held, List.length_filterMap_eq_countP, ← h.length, List.countP_eq_length]
  intro x hx
  have hx := hall x hx
  cases x with
  | none => cases hx
  | some l => rfl

end Sound

end CacheSet

namespace LineSize

variable {n : Nat}

theorem lineBase_eq_iff (h : LineSize n) {a b : Word} :
    Address.lineBase a n = Address.lineBase b n ↔ a.toNat / n = b.toNat / n := by
  constructor
  · intro heq
    rw [← h.lineBase_div a, heq, h.lineBase_div]
  · intro heq
    apply BitVec.eq_of_toNat_eq
    rw [h.toNat_lineBase, h.toNat_lineBase, heq]

theorem lineBase_lineBase (h : LineSize n) (a : Word) :
    Address.lineBase (Address.lineBase a n) n = Address.lineBase a n :=
  h.lineBase_eq_iff.mpr (h.lineBase_div a)

end LineSize

namespace Cache

variable {c : Cache} {set set' way way' tag : Nat} {a b : Word} {l l' : CacheLine}

def base (c : Cache) (addr : Word) : Word := Address.lineBase addr c.lineBytes

structure Holds (c : Cache) (set way : Nat) (b : Word) (l : CacheLine) : Prop where
  set_lt : set < c.geometry.sets
  slot : (c.sets.get set).lineAt way = some l
  address : c.geometry.lineAddress set l.tag = b

theorem setOf_lt (h : c.Sound) (addr : Word) : c.geometry.setOf addr < c.geometry.sets :=
  Nat.mod_lt _ h.sets_pos

theorem toNat_base (h : c.Sound) (addr : Word) :
    (c.base addr).toNat = c.number addr * c.lineBytes := h.lineSize.toNat_lineBase addr

theorem number_base (h : c.Sound) (addr : Word) : c.number (c.base addr) = c.number addr :=
  h.lineSize.lineBase_div addr

theorem base_eq_iff (h : c.Sound) : c.base a = c.base b ↔ c.number a = c.number b :=
  h.lineSize.lineBase_eq_iff

theorem base_base (h : c.Sound) (addr : Word) : c.base (c.base addr) = c.base addr :=
  h.lineSize.lineBase_lineBase addr

theorem setOf_base (h : c.Sound) (addr : Word) :
    c.geometry.setOf (c.base addr) = c.geometry.setOf addr :=
  CacheGeometry.setOf_lineBase h.lineSize addr

theorem base_of_number (h : c.Sound) {n : Nat} (hn : n * c.lineBytes < Machine.limit) :
    c.base (BitVec.ofNat 64 (n * c.lineBytes)) = BitVec.ofNat 64 (n * c.lineBytes) ∧
      c.number (BitVec.ofNat 64 (n * c.lineBytes)) = n := by
  have hto : (BitVec.ofNat 64 (n * c.lineBytes)).toNat = n * c.lineBytes := by
    rw [BitVec.toNat_ofNat, Nat.mod_eq_of_lt (by exact hn)]
  have hnum : c.number (BitVec.ofNat 64 (n * c.lineBytes)) = n := by
    rw [number, hto, Nat.mul_div_cancel _ h.lineSize.pos]
  refine ⟨?_, hnum⟩
  apply BitVec.eq_of_toNat_eq
  rw [toNat_base h, hnum, hto]

theorem line_of_slot (h : c.Sound) (hset : set < c.geometry.sets)
    (hl : (c.sets.get set).lineAt way = some l) :
    c.line (l.tag * c.geometry.sets + set) = some l := by
  rw [line, CacheGeometry.place_mod hset, CacheGeometry.place_div hset]
  exact (h.sets set).lookup_eq_some_iff.mpr ⟨way, hl, rfl⟩

theorem slot_of_line (h : c.Sound) {n : Nat} (hl : c.line n = some l) :
    ∃ way, (c.sets.get (n % c.geometry.sets)).lineAt way = some l := by
  obtain ⟨way, hway, -⟩ := (h.sets _).lookup_eq_some_iff.mp hl
  exact ⟨way, hway⟩

namespace Holds

theorem inside (hl : c.Holds set way b l) (h : c.Sound) :
    (l.tag * c.geometry.sets + set) * c.lineBytes < Machine.limit :=
  h.inside _ _ (line_of_slot h hl.set_lt hl.slot)

theorem number_eq (hl : c.Holds set way b l) (h : c.Sound) :
    c.number b = l.tag * c.geometry.sets + set := by
  rw [← hl.address]
  exact (base_of_number h (hl.inside h)).2

theorem line (hl : c.Holds set way b l) (h : c.Sound) : c.line (c.number b) = some l := by
  rw [hl.number_eq h]
  exact line_of_slot h hl.set_lt hl.slot

theorem base_eq (hl : c.Holds set way b l) (h : c.Sound) : c.base b = b := by
  rw [← hl.address]
  exact (base_of_number h (hl.inside h)).1

theorem toNat_eq (hl : c.Holds set way b l) (h : c.Sound) : b.toNat = c.number b * c.lineBytes := by
  rw [← toNat_base h, hl.base_eq h]

theorem setOf_eq (hl : c.Holds set way b l) (h : c.Sound) : c.geometry.setOf b = set := by
  rw [← hl.address]
  exact CacheGeometry.setOf_lineAddress h.lineSize.pos hl.set_lt (hl.inside h)

theorem tagOf_eq (hl : c.Holds set way b l) (h : c.Sound) : c.geometry.tagOf b = l.tag := by
  rw [← hl.address]
  exact CacheGeometry.tagOf_lineAddress h.lineSize.pos hl.set_lt (hl.inside h)

theorem full (hl : c.Holds set way b l) (h : c.Sound) : l.data.length = c.lineBytes :=
  h.full (hl.line h)

theorem unique (hl : c.Holds set way b l) (hl' : c.Holds set' way' b l') (h : c.Sound) :
    set = set' ∧ way = way' ∧ l = l' := by
  obtain rfl : set = set' := (hl.setOf_eq h).symm.trans (hl'.setOf_eq h)
  have htag : l.tag = l'.tag := (hl.tagOf_eq h).symm.trans (hl'.tagOf_eq h)
  obtain rfl : way = way' := (h.sets set).distinct _ _ _ _ hl.slot hl'.slot htag
  exact ⟨rfl, rfl, Option.some.inj (hl.slot.symm.trans hl'.slot)⟩

end Holds

theorem holds_of_line (h : c.Sound) (hb : c.base b = b) (hl : c.line (c.number b) = some l) :
    ∃ way, c.Holds (c.geometry.setOf b) way b l := by
  obtain ⟨way, hway⟩ := slot_of_line h hl
  refine ⟨way, setOf_lt h b, hway, ?_⟩
  calc c.geometry.lineAddress (c.geometry.setOf b) l.tag
      = c.geometry.lineAddress (c.geometry.setOf b) (c.geometry.tagOf b) := by
        rw [h.tag_eq hl, CacheGeometry.tagOf_eq, number, lineBytes]
    _ = c.base b := CacheGeometry.lineAddress_eq_lineBase h.lineSize b
    _ = b := hb

theorem holds_iff (h : c.Sound) :
    (∃ set way, c.Holds set way b l) ↔ c.base b = b ∧ c.line (c.number b) = some l := by
  constructor
  · rintro ⟨set, way, hl⟩
    exact ⟨hl.base_eq h, hl.line h⟩
  · rintro ⟨hb, hl⟩
    obtain ⟨way, hway⟩ := holds_of_line h hb hl
    exact ⟨_, way, hway⟩

theorem holds_slot (hset : set < c.geometry.sets) (hl : (c.sets.get set).lineAt way = some l) :
    c.Holds set way (c.geometry.lineAddress set l.tag) l := ⟨hset, hl, rfl⟩

end Cache

end EV6
