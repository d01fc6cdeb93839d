import EV6.Cache.Line

namespace EV6

namespace Replacement

variable {r : Replacement} {ways way : Nat}

def Sound (ways : Nat) : Replacement → Prop
  | rotating next => next < ways
  | recency order => order.Perm (List.range ways)

theorem sound_ofPolicy (policy : ReplacementPolicy) (h : 0 < ways) :
    (ofPolicy policy ways).Sound ways := by
  cases policy with
  | roundRobin => exact h
  | leastRecent => exact List.Perm.refl _

theorem promote_sound {order : List Nat} (h : order.Perm (List.range ways)) (hw : way < ways) :
    (promote order way).Perm (List.range ways) :=
  (promote_perm (h.mem_iff.mpr (List.mem_range.mpr hw))).trans h

theorem Sound.touch (h : r.Sound ways) (hw : way < ways) : (r.touch way).Sound ways := by
  cases r with
  | rotating next => exact h
  | recency order => exact promote_sound h hw

theorem Sound.filled (h : r.Sound ways) (hw : way < ways) : (r.filled ways way).Sound ways := by
  cases r with
  | rotating next =>
    simp only [Replacement.filled, Sound]
    split
    · exact Nat.mod_lt _ (Nat.zero_lt_of_lt hw)
    · exact h
  | recency order => exact promote_sound h hw

theorem Sound.victim_lt (h : r.Sound ways) (hpos : 0 < ways) : r.victim < ways := by
  cases r with
  | rotating next => exact h
  | recency order =>
    have hne : order ≠ [] := by
      rintro rfl
      have := List.Perm.length_eq h
      simp at this
      omega
    rw [victim, List.getLastD_eq_getLast?, List.getLast?_eq_some_getLast hne, Option.getD_some]
    exact List.mem_range.mp ((List.Perm.mem_iff h).mp (List.getLast_mem hne))

end Replacement

namespace CacheSet

variable {s : CacheSet} {ways lineBytes tag way i : Nat} {line : CacheLine} {x : Option CacheLine}

structure Sound (ways lineBytes : Nat) (s : CacheSet) : Prop where
  length : s.lines.length = ways
  distinct : ∀ i j a b, s.lineAt i = some a → s.lineAt j = some b → a.tag = b.tag → i = j
  full : ∀ i a, s.lineAt i = some a → a.data.length = lineBytes
  order : s.order.Sound ways

theorem holds_iff : holds tag x = true ↔ ∃ l, x = some l ∧ l.tag = tag := by
  simp [holds, Option.any_eq_true]

theorem lineAt_eq_some (h : s.lineAt i = some line) : s.lines[i]? = some (some line) := by
  rw [lineAt] at h
  cases hi : s.lines[i]? with
  | none => simp [hi] at h
  | some slot => simpa [hi] using h

theorem lineAt_lt (h : s.lineAt i = some line) : i < s.lines.length :=
  (List.getElem?_eq_some_iff.mp (lineAt_eq_some h)).1

theorem lineAt_put (hw : way < s.lines.length) :
    (s.put way x).lineAt i = if i = way then x else s.lineAt i := by
  rw [put, lineAt, List.getElem?_set]
  by_cases h : i = way
  · rw [if_pos h.symm, if_pos h, if_pos (h ▸ hw)]
    rfl
  · rw [if_neg (Ne.symm h), if_neg h]
    rfl

theorem lineAt_of_wayOf (h : s.wayOf tag = some way) :
    ∃ l, s.lineAt way = some l ∧ l.tag = tag := by
  obtain ⟨hlt, hholds, _⟩ := List.findIdx?_eq_some_iff_getElem.mp h
  obtain ⟨l, hl, ht⟩ := holds_iff.mp hholds
  refine ⟨l, ?_, ht⟩
  rw [lineAt, List.getElem?_eq_getElem hlt, hl, Option.join_some]

theorem tag_ne_of_wayOf (h : s.wayOf tag = none) (hi : s.lineAt i = some line) :
    line.tag ≠ tag := by
  have hnone := List.findIdx?_eq_none_iff.mp h
  have hmem := List.mem_of_getElem? (lineAt_eq_some hi)
  intro ht
  exact absurd (holds_iff.mpr ⟨line, rfl, ht⟩) (by rw [hnone _ hmem]; exact Bool.false_ne_true)

theorem lineAt_cleared (s : CacheSet) (i : Nat) : s.cleared.lineAt i = none := by
  rw [lineAt, cleared, List.getElem?_map]
  cases s.lines[i]? <;> rfl

theorem lineAt_empty (policy : ReplacementPolicy) (ways i : Nat) :
    (empty policy ways).lineAt i = none := by
  rw [lineAt, empty, List.getElem?_replicate]
  split <;> rfl

theorem sound_of_vacant (hlength : s.lines.length = ways) (hnone : ∀ i, s.lineAt i = none)
    (horder : s.order.Sound ways) : s.Sound ways lineBytes where
  length := hlength
  distinct i j a b hi := by
    rw [hnone] at hi
    cases hi
  full i a hi := by
    rw [hnone] at hi
    cases hi
  order := horder

theorem lookup_eq_none_of_wayOf (h : s.wayOf tag = none) : s.lookup tag = none := by
  rw [lookup, h, Option.bind_none]

theorem lookup_of_wayOf (h : s.wayOf tag = some way) : s.lookup tag = s.lineAt way := by
  rw [lookup, h, Option.bind_some]

namespace Sound

theorem lookup_eq_some_iff (h : s.Sound ways lineBytes) :
    s.lookup tag = some line ↔ ∃ i, s.lineAt i = some line ∧ line.tag = tag := by
  cases hway : s.wayOf tag with
  | none =>
    rw [lookup_eq_none_of_wayOf hway]
    constructor
    · intro hn
      cases hn
    · rintro ⟨i, hi, ht⟩
      exact absurd ht (tag_ne_of_wayOf hway hi)
  | some way =>
    obtain ⟨l, hl, ht⟩ := lineAt_of_wayOf hway
    rw [lookup_of_wayOf hway, hl]
    constructor
    · rintro ⟨⟩
      exact ⟨way, hl, ht⟩
    · rintro ⟨i, hi, hti⟩
      have : i = way := h.distinct i way line l hi hl (hti.trans ht.symm)
      rw [← hi, this, hl]

theorem wayOf_lt (h : s.Sound ways lineBytes) (hway : s.wayOf tag = some way) : way < ways := by
  obtain ⟨l, hl, _⟩ := lineAt_of_wayOf hway
  exact h.length ▸ lineAt_lt hl

theorem fillWay_lt (h : s.Sound ways lineBytes) (hpos : 0 < ways) : s.fillWay tag < ways := by
  unfold fillWay
  split
  · rename_i way hway
    exact h.wayOf_lt hway
  · cases hfree : s.lines.findIdx? Option.isNone with
    | none => exact h.order.victim_lt hpos
    | some i =>
      obtain ⟨hlt, _⟩ := List.findIdx?_eq_some_iff_getElem.mp hfree
      exact h.length ▸ hlt

theorem put (h : s.Sound ways lineBytes) (hw : way < ways)
    (hfull : ∀ l, x = some l → l.data.length = lineBytes)
    (hfresh : ∀ l i a, x = some l → i ≠ way → s.lineAt i = some a → a.tag ≠ l.tag) :
    (s.put way x).Sound ways lineBytes := by
  have hlt : way < s.lines.length := h.length ▸ hw
  refine ⟨?_, ?_, ?_, h.order⟩
  · rw [CacheSet.put, List.length_set, h.length]
  · intro i j a b hi hj ht
    rw [lineAt_put hlt] at hi hj
    by_cases hiw : i = way
    · rw [if_pos hiw] at hi
      by_cases hjw : j = way
      · rw [hiw, hjw]
      · rw [if_neg hjw] at hj
        exact absurd ht.symm (hfresh a j b hi hjw hj)
    · rw [if_neg hiw] at hi
      by_cases hjw : j = way
      · rw [if_pos hjw] at hj
        exact absurd ht (hfresh b i a hj hiw hi)
      · rw [if_neg hjw] at hj
        exact h.distinct i j a b hi hj ht
  · intro i a hi
    rw [lineAt_put hlt] at hi
    by_cases hiw : i = way
    · rw [if_pos hiw] at hi
      exact hfull a hi
    · rw [if_neg hiw] at hi
      exact h.full i a hi

theorem lookup_put_of_holds (h : s.Sound ways lineBytes) (hp : (s.put way x).Sound ways lineBytes)
    (hw : way < ways) (hx : holds tag x = true) : (s.put way x).lookup tag = x := by
  obtain ⟨k, rfl, hk⟩ := holds_iff.mp hx
  refine hp.lookup_eq_some_iff.mpr ⟨way, ?_, hk⟩
  rw [lineAt_put (h.length ▸ hw), if_pos rfl]

theorem lookup_put_of_not_holds (h : s.Sound ways lineBytes)
    (hp : (s.put way x).Sound ways lineBytes) (hw : way < ways) (hx : ¬holds tag x = true) :
    (s.put way x).lookup tag =
      if holds tag (s.lineAt way) then none else s.lookup tag := by
  have hlt : way < s.lines.length := h.length ▸ hw
  apply Option.ext
  intro l
  rw [hp.lookup_eq_some_iff]
  constructor
  · rintro ⟨i, hi, ht⟩
    rw [lineAt_put hlt] at hi
    by_cases hiw : i = way
    · rw [if_pos hiw] at hi
      exact absurd (holds_iff.mpr ⟨l, hi, ht⟩) hx
    · rw [if_neg hiw] at hi
      have hold : ¬holds tag (s.lineAt way) = true := by
        intro hold
        obtain ⟨k, hk, hkt⟩ := holds_iff.mp hold
        exact hiw (h.distinct i way l k hi hk (ht.trans hkt.symm))
      rw [if_neg hold]
      exact h.lookup_eq_some_iff.mpr ⟨i, hi, ht⟩
  · intro hl
    by_cases hold : holds tag (s.lineAt way) = true
    · rw [if_pos hold] at hl
      cases hl
    · rw [if_neg hold] at hl
      obtain ⟨i, hi, ht⟩ := h.lookup_eq_some_iff.mp hl
      have hiw : i ≠ way := by
        rintro rfl
        exact hold (holds_iff.mpr ⟨l, hi, ht⟩)
      refine ⟨i, ?_, ht⟩
      rw [lineAt_put hlt, if_neg hiw, hi]

theorem lookup_put (h : s.Sound ways lineBytes) (hp : (s.put way x).Sound ways lineBytes)
    (hw : way < ways) (tag : Nat) :
    (s.put way x).lookup tag =
      if holds tag x then x else if holds tag (s.lineAt way) then none else s.lookup tag := by
  by_cases hx : holds tag x = true
  · rw [if_pos hx, h.lookup_put_of_holds hp hw hx]
  · rw [if_neg hx, h.lookup_put_of_not_holds hp hw hx]

theorem put_none (h : s.Sound ways lineBytes) (hway : s.wayOf tag = some way) :
    (s.put way none).Sound ways lineBytes :=
  h.put (h.wayOf_lt hway) (fun _ hl => by cases hl) (fun _ _ _ hl => by cases hl)

theorem lookup_put_none (h : s.Sound ways lineBytes) (hway : s.wayOf tag = some way) (t : Nat) :
    (s.put way none).lookup t = if t = tag then none else s.lookup t := by
  obtain ⟨l, hl, rfl⟩ := lineAt_of_wayOf hway
  rw [h.lookup_put (h.put_none hway) (h.wayOf_lt hway), hl]
  simp only [holds, Option.any_none, Option.any_some, Bool.false_eq_true, if_false, beq_iff_eq]
  by_cases ht : t = l.tag
  · rw [if_pos ht, if_pos ht.symm]
  · rw [if_neg ht, if_neg (Ne.symm ht)]

theorem put_some (h : s.Sound ways lineBytes) (hway : s.wayOf tag = some way) (line : CacheLine)
    (ht : line.tag = tag) (hfull : line.data.length = lineBytes) :
    (s.put way (some line)).Sound ways lineBytes := by
  obtain ⟨l, hl, hlt⟩ := lineAt_of_wayOf hway
  refine h.put (h.wayOf_lt hway) ?_ ?_
  · rintro _ ⟨⟩
    exact hfull
  · rintro _ i a ⟨⟩ hi ha htag
    exact hi (h.distinct i way a l ha hl (by rw [htag, ht, hlt]))

theorem lookup_put_some (h : s.Sound ways lineBytes) (hway : s.wayOf tag = some way)
    (line : CacheLine) (ht : line.tag = tag) (hfull : line.data.length = lineBytes) (t : Nat) :
    (s.put way (some line)).lookup t = if t = tag then some line else s.lookup t := by
  obtain ⟨l, hl, hlt⟩ := lineAt_of_wayOf hway
  rw [h.lookup_put (h.put_some hway line ht hfull) (h.wayOf_lt hway), hl]
  simp only [holds, Option.any_some, beq_iff_eq, ht, hlt]
  by_cases hteq : t = tag
  · rw [if_pos hteq, if_pos hteq.symm]
  · rw [if_neg hteq, if_neg (Ne.symm hteq), if_neg (Ne.symm hteq)]

theorem touch (h : s.Sound ways lineBytes) (hw : way < ways) :
    (s.touch way).Sound ways lineBytes :=
  ⟨h.length, h.distinct, h.full, h.order.touch hw⟩

theorem cleared (h : s.Sound ways lineBytes) : s.cleared.Sound ways lineBytes :=
  sound_of_vacant (by rw [CacheSet.cleared, List.length_map, h.length]) (lineAt_cleared s) h.order

end Sound

theorem lookup_touch (s : CacheSet) (way tag : Nat) : (s.touch way).lookup tag = s.lookup tag := rfl

theorem lookup_cleared (s : CacheSet) (tag : Nat) : s.cleared.lookup tag = none := by
  refine lookup_eq_none_of_wayOf ?_
  rw [wayOf, List.findIdx?_eq_none_iff]
  intro x hx
  obtain ⟨y, _, rfl⟩ := List.mem_map.mp hx
  rfl

theorem sound_empty (policy : ReplacementPolicy) (lineBytes : Nat) (h : 0 < ways) :
    (empty policy ways).Sound ways lineBytes :=
  sound_of_vacant List.length_replicate (lineAt_empty policy ways)
    (Replacement.sound_ofPolicy policy h)

theorem lookup_empty (policy : ReplacementPolicy) (ways tag : Nat) :
    (empty policy ways).lookup tag = none := by
  refine lookup_eq_none_of_wayOf ?_
  rw [wayOf, List.findIdx?_eq_none_iff]
  intro x hx
  rw [List.eq_of_mem_replicate hx]
  rfl

theorem fill_eq (s : CacheSet) (line : CacheLine) :
    s.fill line =
      { s.put (s.fillWay line.tag) (some line) with
        order := s.order.filled s.lines.length (s.fillWay line.tag) } := rfl

theorem fill_fresh (h : s.Sound ways lineBytes) (hi : i ≠ s.fillWay tag)
    (ha : s.lineAt i = some line) : line.tag ≠ tag := by
  cases hway : s.wayOf tag with
  | none => exact tag_ne_of_wayOf hway ha
  | some way =>
    obtain ⟨l, hl, ht⟩ := lineAt_of_wayOf hway
    rw [fillWay, hway] at hi
    intro htag
    exact hi (h.distinct i way line l ha hl (htag.trans ht.symm))

theorem displaced_eq_some_iff {d : CacheLine} :
    s.displaced tag = some d ↔ s.lineAt (s.fillWay tag) = some d ∧ d.tag ≠ tag := by
  simp [displaced, Option.filter_eq_some_iff]

namespace Sound

theorem put_fillWay (h : s.Sound ways lineBytes) (hpos : 0 < ways)
    (hfull : line.data.length = lineBytes) :
    (s.put (s.fillWay line.tag) (some line)).Sound ways lineBytes := by
  refine h.put (h.fillWay_lt hpos) ?_ ?_
  · rintro _ ⟨⟩
    exact hfull
  · rintro _ i a ⟨⟩ hi ha
    exact fill_fresh h hi ha

theorem fill (h : s.Sound ways lineBytes) (hpos : 0 < ways)
    (hfull : line.data.length = lineBytes) : (s.fill line).Sound ways lineBytes := by
  have hput := h.put_fillWay hpos hfull
  refine ⟨hput.length, hput.distinct, hput.full, ?_⟩
  rw [fill_eq, h.length]
  exact h.order.filled (h.fillWay_lt hpos)

theorem lookup_displaced (h : s.Sound ways lineBytes) {d : CacheLine}
    (hd : s.displaced tag = some d) : s.lookup d.tag = some d :=
  h.lookup_eq_some_iff.mpr ⟨_, (displaced_eq_some_iff.mp hd).1, rfl⟩

theorem lookup_fill (h : s.Sound ways lineBytes) (hpos : 0 < ways)
    (hfull : line.data.length = lineBytes) (t : Nat) :
    (s.fill line).lookup t =
      if t = line.tag then some line
      else if holds t (s.displaced line.tag) then none else s.lookup t := by
  have hlookup : (s.fill line).lookup t = (s.put (s.fillWay line.tag) (some line)).lookup t := rfl
  rw [hlookup, h.lookup_put (h.put_fillWay hpos hfull) (h.fillWay_lt hpos)]
  by_cases ht : t = line.tag
  · rw [if_pos ht, if_pos (holds_iff.mpr ⟨line, rfl, ht.symm⟩)]
  · have hline : ¬holds t (some line) = true := by
      intro hline
      obtain ⟨_, ⟨⟩, htag⟩ := holds_iff.mp hline
      exact ht htag.symm
    have hsame : holds t (s.lineAt (s.fillWay line.tag)) = holds t (s.displaced line.tag) := by
      rw [Bool.eq_iff_iff, holds_iff, holds_iff]
      constructor
      · rintro ⟨d, hd, rfl⟩
        exact ⟨d, displaced_eq_some_iff.mpr ⟨hd, ht⟩, rfl⟩
      · rintro ⟨d, hd, rfl⟩
        exact ⟨d, (displaced_eq_some_iff.mp hd).1, rfl⟩
    rw [if_neg hline, if_neg ht, hsame]

end Sound

def held (s : CacheSet) : List CacheLine := s.lines.filterMap id

theorem dirtyLines_eq (s : CacheSet) : s.dirtyLines = s.held.filter (·.dirty) := rfl

theorem mem_held (h : s.Sound ways lineBytes) : line ∈ s.held ↔ s.lookup line.tag = some line := by
  rw [h.lookup_eq_some_iff, held, List.mem_filterMap]
  constructor
  · rintro ⟨x, hx, rfl⟩
    obtain ⟨i, hi⟩ := List.mem_iff_getElem?.mp hx
    exact ⟨i, by rw [lineAt, hi, Option.join_some], rfl⟩
  · rintro ⟨i, hi, _⟩
    exact ⟨some line, List.mem_of_getElem? (lineAt_eq_some hi), rfl⟩

end CacheSet

end EV6
