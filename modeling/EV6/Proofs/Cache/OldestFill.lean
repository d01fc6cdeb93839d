import EV6.Proofs.Cache.Rotation
/-!
When the line that gives way to the rotating pointer is the one filled longest ago. In a set of two
ways it always is. In a larger one a line that is filled again in place keeps its turn, and gives way
before older ones.
-/

namespace EV6

open Replacement

namespace CacheSet

variable {s : CacheSet} {ways lineBytes way tag i : Nat} {line : CacheLine}

def tagAt (s : CacheSet) (way : Nat) : Option Nat := (s.lineAt way).map (·.tag)

theorem tagAt_eq_some_iff : s.tagAt way = some tag ↔ ∃ l, s.lineAt way = some l ∧ l.tag = tag :=
  Option.map_eq_some_iff

theorem tagAt_fill (h : s.Sound ways lineBytes) (hpos : 0 < ways) :
    (s.fill line).tagAt i = if i = s.fillWay line.tag then some line.tag else s.tagAt i := by
  change ((s.put _ _).lineAt i).map _ = _
  rw [lineAt_put (h.length ▸ h.fillWay_lt hpos)]
  split <;> rfl

theorem wayOf_of_absent (h : ∀ i, s.tagAt i ≠ some tag) : s.wayOf tag = none := by
  cases hway : s.wayOf tag with
  | none => rfl
  | some way => exact absurd (tagAt_eq_some_iff.mpr (lineAt_of_wayOf hway)) (h way)

theorem fillWay_present (h : s.Sound ways lineBytes) (ht : s.tagAt way = some tag) :
    s.fillWay tag = way := by
  obtain ⟨l, hl, htag⟩ := tagAt_eq_some_iff.mp ht
  exact Decidable.byContradiction fun hne => fill_fresh h (Ne.symm hne) hl htag

theorem isNone_getElem (hi : i < s.lines.length) : s.lines[i].isNone = (s.tagAt i).isNone := by
  simp [tagAt, lineAt, hi]

theorem fillWay_room (habsent : ∀ i, s.tagAt i ≠ some tag) (hway : way < s.lines.length)
    (hfree : s.tagAt way = none) (hbefore : ∀ i < way, s.tagAt i ≠ none) :
    s.fillWay tag = way := by
  have hfirst : s.lines.findIdx? Option.isNone = some way := by
    refine List.findIdx?_eq_some_iff_getElem.mpr ⟨hway, ?_, fun i hi => ?_⟩
    · rw [isNone_getElem hway, hfree]
      rfl
    · rw [isNone_getElem (Nat.lt_trans hi hway), Option.isNone_iff_eq_none]
      exact hbefore i hi
  rw [fillWay, wayOf_of_absent habsent, hfirst]
  rfl

theorem fillWay_full (habsent : ∀ i, s.tagAt i ≠ some tag)
    (hfull : ∀ i < s.lines.length, s.tagAt i ≠ none) : s.fillWay tag = s.order.victim := by
  have hnone : s.lines.findIdx? Option.isNone = none := by
    refine List.findIdx?_eq_none_iff.mpr fun x hx => ?_
    obtain ⟨i, hi, rfl⟩ := List.mem_iff_getElem.mp hx
    rw [isNone_getElem hi, Option.isNone_eq_false_iff, Option.isSome_iff_ne_none]
    exact hfull i hi
  rw [fillWay, wayOf_of_absent habsent, hnone]
  rfl

end CacheSet

namespace Cache

variable {c c' start : Cache} {past : List (Request × Answer)} {addr : Word} {data : List Byte}
  {dirty : Bool} {v : Victim} {b b' : Word} {l l' : CacheLine} {set way way' k left tag : Nat}

theorem displaced_of_serve (h : c.Sound) (he : c.enabled = true)
    (hs : serve (.fill addr data dirty) c = .done (.victim (some v)) c') :
    c.displaced addr = some v := by
  generalize ha : Answer.victim (some v) = a at hs
  cases does_of_serve h he hs
  exact (Answer.victim.inj ha).symm

def FilledFirst (c : Cache) (past : List (Request × Answer)) (set : Nat) (b : Word) (k : Nat) :
    Prop :=
  ∀ way' b' l', c.Holds set way' b' l' → b' ≠ b →
    ∃ j, LastNamed filledBy c.lineBytes past b' j ∧ k < j

def DisplacesOldest (start : Cache) : Prop :=
  ∀ past c addr data dirty v c', Served start past c →
    serve (.fill addr data dirty) c = .done (.victim (some v)) c' →
    ∃ way l k, c.Holds (c.geometry.setOf addr) way v.addr l ∧
      LastNamed filledBy c.lineBytes past v.addr k ∧
      c.FilledFirst past (c.geometry.setOf addr) v.addr k

/-- The line that gives way, and its last fill, which left the pointer at `left`. The lines in the
ways that the pointer passed since then were filled later. -/
structure GivesWay (start : Cache) (past : List (Request × Answer)) (c : Cache) (set : Nat)
    (v : Victim) (way : Nat) (l : CacheLine) (k left : Nat) : Prop where
  holds : c.Holds set way v.addr l
  victim : v = ⟨v.addr, l.dirty, l.data⟩
  filled : LastFill start set past v.addr k left
  left_lt : left < c.geometry.ways
  left_ne : 2 ≤ c.geometry.ways → left ≠ way
  later : ∀ way' b l', c.Holds set way' b l' →
    steps c.geometry.ways left way' < steps c.geometry.ways left way →
      ∃ j, LastNamed filledBy c.lineBytes past b j ∧ k < j

theorem Rotated.givesWay (hr : Rotated start past c) (h : c.Sound)
    (hg : c.geometry = start.geometry) (hv : c.displaced addr = some v) :
    ∃ way l k left, GivesWay start past c (c.geometry.setOf addr) v way l k left := by
  have hbytes : start.lineBytes = c.lineBytes := congrArg CacheGeometry.lineBytes hg.symm
  obtain ⟨d, hd, rfl⟩ := Option.map_eq_some_iff.mp hv
  obtain ⟨next, hrot⟩ := hr _ (hg ▸ setOf_lt h addr)
  rw [← hg] at hrot
  obtain ⟨hslot, k, left, hfill, hlt, hne, hlater⟩ := hrot.displaced hd
  refine ⟨next, d, k, left, holds_slot (setOf_lt h addr) hslot, rfl, hfill, hlt, hne, ?_⟩
  intro way' b l' hl' hsteps
  obtain ⟨j, left', hj⟩ := hrot.known way' l' hl'.slot
  refine ⟨j, ?_, hlater way' l' j left' hl'.slot hj hsteps⟩
  rw [← hl'.address, ← hbytes]
  exact hj.last

theorem Holds.way_lt (hl : c.Holds set way b l) (h : c.Sound) : way < c.geometry.ways :=
  (h.sets set).length ▸ CacheSet.lineAt_lt hl.slot

theorem Holds.way_ne (hl : c.Holds set way b l) (hl' : c.Holds set way' b' l') (hne : b' ≠ b) :
    way' ≠ way := by
  rintro rfl
  have hsame : l' = l := Option.some.inj (hl'.slot.symm.trans hl.slot)
  exact hne (by rw [← hl.address, ← hl'.address, hsame])

theorem GivesWay.filledFirst (hv : GivesWay start past c set v way l k left) (h : c.Sound)
    (hmoved : left = (way + 1) % c.geometry.ways) : c.FilledFirst past set v.addr k := by
  intro way' b' l' hl' hne
  have hway := hv.holds.way_lt h
  have hway' := hl'.way_lt h
  have hlast : steps c.geometry.ways left way = c.geometry.ways - 1 := hmoved ▸ steps_past hway
  refine hv.later way' b' l' hl' (Nat.lt_of_le_of_ne ?_ fun heq => ?_)
  · have hlt : steps c.geometry.ways left way' < c.geometry.ways := steps_lt hv.left_lt
    omega
  · exact hv.holds.way_ne hl' hne (steps_inj hv.left_lt hway' hway heq)

theorem GivesWay.moved (hv : GivesWay start past c set v way l k left) (h : c.Sound)
    (htwo : c.geometry.ways ≤ 2) : left = (way + 1) % c.geometry.ways := by
  have hway := hv.holds.way_lt h
  have hleft := hv.left_lt
  have hne := hv.left_ne
  obtain hways | hways : c.geometry.ways = 1 ∨ c.geometry.ways = 2 := by omega
  all_goals
    rw [hways] at hway hleft hne ⊢
    omega

theorem displacesOldest_of_two (hs : start.Sound) (he : start.enabled = true)
    (hr : Rotated start [] start) (htwo : start.geometry.ways ≤ 2) : DisplacesOldest start := by
  intro past c addr data dirty v c' hrun hserve
  obtain ⟨hc, hce, hg⟩ := hrun.sound hs he
  obtain ⟨way, l, k, left, hgives⟩ :=
    (hrun.rotated hs he hr).givesWay hc hg (displaced_of_serve hc hce hserve)
  have hlast := hgives.filled.last
  rw [show start.lineBytes = c.lineBytes from congrArg CacheGeometry.lineBytes hg.symm] at hlast
  have hmoved := hgives.moved hc (hg ▸ htwo)
  exact ⟨way, l, k, hgives.holds, hlast, hgives.filledFirst hc hmoved⟩

structure Roomy (start : Cache) : Prop where
  sound : start.Sound
  enabled : start.enabled = true
  new : start.sets.get 0 = .empty .roundRobin start.geometry.ways
  fits : start.geometry.ways * start.geometry.sets * start.geometry.lineBytes < Machine.limit

def fillOf (g : CacheGeometry) (tag : Nat) : Request :=
  .fill (g.lineAddress 0 tag) (List.replicate g.lineBytes 0) false

structure Stocked (start : Cache) (past : List (Request × Answer)) (c : Cache)
    (tags : Nat → Option Nat) (next : Nat) : Prop where
  run : Served start past c
  tags : ∀ i, (c.sets.get 0).tagAt i = tags i
  order : (c.sets.get 0).order = .rotating next

theorem Stocked.congr {tags tags' : Nat → Option Nat} {next next' : Nat}
    (h : Stocked start past c tags next) (ht : ∀ i, tags i = tags' i) (hn : next = next') :
    Stocked start past c tags' next' :=
  ⟨h.run, fun i => (h.tags i).trans (ht i), hn ▸ h.order⟩

theorem Stocked.holds {tags : Nat → Option Nat} {next : Nat} (h : Stocked start past c tags next)
    (hc : c.Sound) (ht : tags way = some tag) :
    ∃ l, c.Holds 0 way (c.geometry.lineAddress 0 tag) l := by
  obtain ⟨l, hl, rfl⟩ := CacheSet.tagAt_eq_some_iff.mp ((h.tags way).trans ht)
  exact ⟨l, holds_slot hc.sets_pos hl⟩

namespace Roomy

variable (h : Roomy start) {tag' next : Nat} {tags : Nat → Option Nat} {a : Answer}

include h

theorem lineAddress_lt (ht : tag ≤ start.geometry.ways) :
    (tag * start.geometry.sets + 0) * start.geometry.lineBytes < Machine.limit :=
  Nat.lt_of_le_of_lt (Nat.mul_le_mul_right _ (Nat.mul_le_mul_right _ ht)) h.fits

theorem setOf_tag (ht : tag ≤ start.geometry.ways) :
    start.geometry.setOf (start.geometry.lineAddress 0 tag) = 0 :=
  CacheGeometry.setOf_lineAddress h.sound.lineSize.pos h.sound.sets_pos (h.lineAddress_lt ht)

theorem tagOf_tag (ht : tag ≤ start.geometry.ways) :
    start.geometry.tagOf (start.geometry.lineAddress 0 tag) = tag :=
  CacheGeometry.tagOf_lineAddress h.sound.lineSize.pos h.sound.sets_pos (h.lineAddress_lt ht)

theorem base_tag (ht : tag ≤ start.geometry.ways) :
    start.base (start.geometry.lineAddress 0 tag) = start.geometry.lineAddress 0 tag := by
  have hbase :=
    CacheGeometry.lineAddress_eq_lineBase h.sound.lineSize (start.geometry.lineAddress 0 tag)
  rw [h.setOf_tag ht, h.tagOf_tag ht] at hbase
  exact hbase.symm

theorem lineAddress_ne (ht : tag ≤ start.geometry.ways) (ht' : tag' ≤ start.geometry.ways)
    (hne : tag ≠ tag') :
    start.geometry.lineAddress 0 tag ≠ start.geometry.lineAddress 0 tag' := by
  intro heq
  have htags := congrArg start.geometry.tagOf heq
  rw [h.tagOf_tag ht, h.tagOf_tag ht'] at htags
  exact hne htags

theorem last_self (ht : tag ≤ start.geometry.ways) :
    LastNamed filledBy start.lineBytes (past ++ [(fillOf start.geometry tag, a)])
      (start.geometry.lineAddress 0 tag) past.length :=
  (lastNamed_snoc_self rfl (h.base_tag ht)).mpr rfl

theorem last_other (ht : tag ≤ start.geometry.ways) (ht' : tag' ≤ start.geometry.ways)
    (hne : tag ≠ tag') (hk : LastNamed filledBy start.lineBytes past
      (start.geometry.lineAddress 0 tag') k) :
    LastNamed filledBy start.lineBytes (past ++ [(fillOf start.geometry tag, a)])
      (start.geometry.lineAddress 0 tag') k := by
  refine (lastNamed_snoc_of_ne ?_).mpr hk
  rintro addr ⟨⟩ heq
  exact h.lineAddress_ne ht ht' hne ((h.base_tag ht).symm.trans heq)

theorem length_lines (hrun : Served start past c) :
    (c.sets.get 0).lines.length = start.geometry.ways := by
  obtain ⟨hc, -, hg⟩ := hrun.sound h.sound h.enabled
  rw [(hc.sets 0).length, hg]

theorem serve_fill (hc : Served start past c) (ht : tag ≤ start.geometry.ways) :
    ∃ c', serve (fillOf start.geometry tag) c =
        .done (.victim (c.displaced (start.geometry.lineAddress 0 tag))) c' ∧
      c'.sets.get 0 =
        (c.sets.get 0).fill ⟨tag, false, false, List.replicate start.geometry.lineBytes 0⟩ := by
  obtain ⟨hcs, hce, hg⟩ := hc.sound h.sound h.enabled
  have hset : c.geometry.setOf (start.geometry.lineAddress 0 tag) = 0 := hg ▸ h.setOf_tag ht
  have htag : c.geometry.tagOf (start.geometry.lineAddress 0 tag) = tag := hg ▸ h.tagOf_tag ht
  have hwhole : (List.replicate start.geometry.lineBytes (0 : Byte)).length = c.lineBytes := by
    rw [List.length_replicate, lineBytes, hg]
  refine ⟨c.filled (start.geometry.lineAddress 0 tag) (.replicate start.geometry.lineBytes 0) false,
    ?_, ?_⟩
  · simp only [serve, fillOf, Step.bind_done (fill_apply hce hwhole _ _), Step.pure_apply]
  · rw [filled, withSet, setAt, hset, htag, Table.get_set_self]

theorem stock (hst : Stocked start past c tags next) (ht : tag ≤ start.geometry.ways)
    (hway : (c.sets.get 0).fillWay tag = way) :
    ∃ v c', Stocked start (past ++ [(fillOf start.geometry tag, .victim v)]) c'
      (fun i => if i = way then some tag else tags i) (advanced start.geometry.ways next way) := by
  obtain ⟨hcs, -, hg⟩ := hst.run.sound h.sound h.enabled
  obtain ⟨c', hserve, hset⟩ := h.serve_fill hst.run ht
  refine ⟨_, c', hst.run.snoc hserve, fun i => ?_, ?_⟩
  · rw [hset, CacheSet.tagAt_fill (hcs.sets 0) hcs.ways_pos, hst.tags, hway]
  · rw [hset, CacheSet.fill_eq, hst.order, (hcs.sets 0).length, hway, hg, filled_rotating]

theorem exists_stocked {n : Nat} (hn : n ≤ start.geometry.ways) :
    ∃ past c, past.length = n ∧ Stocked start past c (fun i => if i < n then some i else none)
      (n % start.geometry.ways) ∧
      ∀ t < n, LastNamed filledBy start.lineBytes past (start.geometry.lineAddress 0 t) t := by
  induction n with
  | zero =>
    refine ⟨[], start, rfl, ⟨.nil, fun i => ?_, ?_⟩, by simp⟩
    · simp [h.new, CacheSet.tagAt, CacheSet.lineAt_empty]
    · simp [h.new, CacheSet.empty, ofPolicy]
  | succ n ih =>
    obtain ⟨past, c, hlength, hst, hlast⟩ := ih (Nat.le_of_succ_le hn)
    have hlines := h.length_lines hst.run
    have hway : (c.sets.get 0).fillWay n = n := by
      refine CacheSet.fillWay_room (fun i => ?_) (by omega) ?_ fun i hi => ?_ <;> rw [hst.tags]
      · simp
        omega
      · simp
      · simp [hi]
    obtain ⟨v, c', hst'⟩ := h.stock hst (Nat.le_of_succ_le hn) hway
    refine ⟨past ++ [(fillOf start.geometry n, .victim v)], c', by simp [hlength], ?_, fun t ht => ?_⟩
    · refine hst'.congr (fun i => ?_) (by simp [advanced, Nat.mod_eq_of_lt hn])
      grind
    · by_cases hlatest : t = n
      · rw [hlatest, ← hlength]
        exact h.last_self (hlength ▸ Nat.le_of_succ_le hn)
      · exact h.last_other (Nat.le_of_succ_le hn) (by omega) (Ne.symm hlatest)
          (hlast t (by omega))

theorem exists_refilled (hways : 3 ≤ start.geometry.ways) :
    ∃ past c, Stocked start past c (fun i => if i < start.geometry.ways then some i else none) 0 ∧
      LastNamed filledBy start.lineBytes past (start.geometry.lineAddress 0 1)
        start.geometry.ways ∧
      LastNamed filledBy start.lineBytes past (start.geometry.lineAddress 0 2) 2 := by
  obtain ⟨past, c, hlength, hst, hlast⟩ := h.exists_stocked (Nat.le_refl _)
  obtain ⟨hcs, -, -⟩ := hst.run.sound h.sound h.enabled
  have hway : (c.sets.get 0).fillWay 1 = 1 := by
    refine CacheSet.fillWay_present (hcs.sets 0) ?_
    rw [hst.tags]
    exact if_pos (by omega)
  obtain ⟨v, c', hst'⟩ := h.stock hst (by omega) hway
  refine ⟨_, c', hst'.congr (fun i => ?_) (by simp [advanced]), ?_, ?_⟩
  · grind
  · rw [← hlength]
    exact h.last_self (by omega)
  · exact h.last_other (by omega) (by omega) (by decide) (hlast 2 (by omega))

theorem exists_overtaken (hways : 3 ≤ start.geometry.ways) :
    ∃ past c, Stocked start past c
        (fun i => if i = 0 then some start.geometry.ways
          else if i < start.geometry.ways then some i else none) 1 ∧
      LastNamed filledBy start.lineBytes past (start.geometry.lineAddress 0 1)
        start.geometry.ways ∧
      LastNamed filledBy start.lineBytes past (start.geometry.lineAddress 0 2) 2 := by
  obtain ⟨past, c, hst, hone, htwo⟩ := h.exists_refilled hways
  have hlines := h.length_lines hst.run
  have hway : (c.sets.get 0).fillWay start.geometry.ways = 0 := by
    rw [CacheSet.fillWay_full (fun i => ?_) fun i hi => ?_, hst.order]
    · rfl
    · rw [hst.tags]
      grind
    · rw [hst.tags, if_pos (hlines ▸ hi)]
      simp
  obtain ⟨v, c', hst'⟩ := h.stock hst (Nat.le_refl _) hway
  refine ⟨_, c', hst'.congr (fun _ => rfl) ?_, ?_, ?_⟩
  · simp [advanced, Nat.mod_eq_of_lt (show 1 < start.geometry.ways by omega)]
  · exact h.last_other (Nat.le_refl _) (by omega) (by omega) hone
  · exact h.last_other (Nat.le_refl _) (by omega) (by omega) htwo

theorem displaces_second (hst : Stocked start past c tags 1) (hfull : ∀ i < start.geometry.ways,
    tags i ≠ none) (habsent : ∀ i, tags i ≠ some 0) (hl : c.Holds 0 1 b l) :
    ∃ v c', serve (fillOf start.geometry 0) c = .done (.victim (some v)) c' ∧ v.addr = b := by
  obtain ⟨-, -, hg⟩ := hst.run.sound h.sound h.enabled
  have hset : c.geometry.setOf (start.geometry.lineAddress 0 0) = 0 :=
    hg ▸ h.setOf_tag (Nat.zero_le _)
  have htag : c.geometry.tagOf (start.geometry.lineAddress 0 0) = 0 :=
    hg ▸ h.tagOf_tag (Nat.zero_le _)
  have hway : (c.sets.get 0).fillWay 0 = 1 := by
    rw [CacheSet.fillWay_full (fun i => ?_) fun i hi => ?_, hst.order]
    · rfl
    · exact hst.tags i ▸ habsent i
    · exact hst.tags i ▸ hfull i (h.length_lines hst.run ▸ hi)
  have hother : l.tag ≠ 0 := fun hzero =>
    habsent 1 ((hst.tags 1).symm.trans (CacheSet.tagAt_eq_some_iff.mpr ⟨l, hl.slot, hzero⟩))
  obtain ⟨c', hserve, -⟩ := h.serve_fill hst.run (Nat.zero_le _)
  refine ⟨c.victimOf (start.geometry.lineAddress 0 0) l, c', ?_, ?_⟩
  · rw [hserve, displaced, setAt, hset, htag,
      CacheSet.displaced_eq_some_iff.mpr ⟨hway.symm ▸ hl.slot, hother⟩]
    rfl
  · rw [victimOf, hset]
    exact hl.address

theorem not_displacesOldest (hways : 3 ≤ start.geometry.ways) : ¬DisplacesOldest start := by
  intro hall
  obtain ⟨past, c, hst, hone, htwo⟩ := h.exists_overtaken hways
  obtain ⟨hc, -, hg⟩ := hst.run.sound h.sound h.enabled
  have hbytes : c.lineBytes = start.lineBytes := congrArg CacheGeometry.lineBytes hg
  obtain ⟨d, hd⟩ : ∃ d, c.Holds 0 1 (c.geometry.lineAddress 0 1) d := hst.holds hc (by grind)
  obtain ⟨l, hl⟩ : ∃ l, c.Holds 0 2 (c.geometry.lineAddress 0 2) l := hst.holds hc (by grind)
  obtain ⟨v, c', hserve, haddr⟩ := h.displaces_second hst (by grind) (by grind) hd
  obtain ⟨way, l', k, -, hk, hfirst⟩ := hall _ _ _ _ _ _ _ hst.run hserve
  rw [hg] at hl haddr hfirst
  rw [h.setOf_tag (Nat.zero_le _), haddr] at hfirst
  rw [hbytes, haddr] at hk
  obtain ⟨j, hj, hlt⟩ := hfirst 2 _ l hl (h.lineAddress_ne (by omega) (by omega) (by decide))
  rw [hbytes] at hj
  have hk := hk.unique hone
  have hj := hj.unique htwo
  omega

end Roomy

theorem roomy_ofConfig {name : String} {cfg : CacheConfig} (hstart : ofConfig name cfg = .ok start)
    (he : cfg.enabled = true) (hp : cfg.policy = .roundRobin)
    (hsize : cfg.sizeBytes < Machine.limit) : Roomy start := by
  obtain ⟨hs, -, hen, -⟩ := ofConfig_spec hstart
  refine ⟨hs, hen.trans he, ?_, ?_⟩
  · obtain ⟨_, _, hc⟩ := ConfigFailure.bind_eq_ok hstart
    obtain ⟨_, _, hc⟩ := ConfigFailure.ofBreach_then hc
    cases hc
    rw [Table.get_ofBlank, hp]
    rfl
  · rw [geometry_ofConfig hstart]
    refine Nat.lt_of_le_of_lt ?_ hsize
    calc cfg.ways * cfg.sets * cfg.lineBytes = cfg.sets * (cfg.lineBytes * cfg.ways) := by
          rw [Nat.mul_comm cfg.ways, Nat.mul_assoc, Nat.mul_comm cfg.ways]
      _ ≤ cfg.sets * max (cfg.lineBytes * cfg.ways) 1 :=
          Nat.mul_le_mul_left _ (Nat.le_max_left _ _)
      _ ≤ cfg.sizeBytes := Nat.div_mul_le_self _ _

theorem displaces_oldest_fill_iff {name : String} {cfg : CacheConfig}
    (hstart : ofConfig name cfg = .ok start) (he : cfg.enabled = true)
    (hp : cfg.policy = .roundRobin) (hsize : cfg.sizeBytes < Machine.limit) :
    (∀ past c addr data dirty v c', Served start past c →
      serve (.fill addr data dirty) c = .done (.victim (some v)) c' →
      ∃ way l k left,
        GivesWay start past c ((CacheGeometry.ofConfig cfg).setOf addr) v way l k left ∧
        (left = (way + 1) % cfg.ways →
          c.FilledFirst past ((CacheGeometry.ofConfig cfg).setOf addr) v.addr k)) ∧
    (DisplacesOldest start ↔ cfg.ways ≤ 2) := by
  have hroomy := roomy_ofConfig hstart he hp hsize
  have hrotated := rotated_ofConfig hstart hp hroomy.sound
  have hg := geometry_ofConfig hstart
  have hways : start.geometry.ways = cfg.ways := congrArg CacheGeometry.ways hg
  refine ⟨fun past c addr data dirty v c' hrun hserve => ?_, fun hall => ?_, fun htwo => ?_⟩
  · obtain ⟨hc, hce, hcg⟩ := hrun.sound hroomy.sound hroomy.enabled
    obtain ⟨way, l, k, left, hv⟩ := (hrun.rotated hroomy.sound hroomy.enabled hrotated).givesWay
      hc hcg (displaced_of_serve hc hce hserve)
    rw [← hways, ← hg, ← hcg]
    exact ⟨way, l, k, left, hv, hv.filledFirst hc⟩
  · refine Nat.le_of_not_lt fun hmany => ?_
    exact hroomy.not_displacesOldest (hways.symm ▸ hmany) hall
  · exact displacesOldest_of_two hroomy.sound hroomy.enabled hrotated (hways.symm ▸ htwo)

/-! Three ways, filled in turn. The second line is filled again, a new line takes the place of the
first, and the next takes the place of the second, although the third was filled before it. -/

def threeWays : CacheConfig := ⟨true, 24, 8, 3, .roundRobin, 0⟩

def filledAgain : List (Request × Answer) :=
  [(.fill 0 (List.replicate 8 0) false, .victim none),
    (.fill 8 (List.replicate 8 1) false, .victim none)] ++
  [(.fill 16 (List.replicate 8 2) false, .victim none)] ++
  [(.fill 8 (List.replicate 8 3) false, .victim none)] ++
  [(.fill 24 (List.replicate 8 4) false, .victim (some ⟨0, false, List.replicate 8 0⟩))]

theorem displaces_oldest_fill_filled_again :
    ∃ start c, ofConfig "dcache" threeWays = .ok start ∧ Served start filledAgain c ∧
      (∃ c', serve (.fill 0 (List.replicate 8 5) false) c =
        .done (.victim (some ⟨8, false, List.replicate 8 3⟩)) c') ∧
      LastNamed filledBy 8 filledAgain 8 3 ∧ LastNamed filledBy 8 filledAgain 16 2 ∧
      (∃ way l k left, GivesWay start filledAgain c 0 ⟨8, false, List.replicate 8 3⟩ way l k left ∧
        (left = (way + 1) % 3 → c.FilledFirst filledAgain 0 8 k)) ∧
      ¬DisplacesOldest start := by
  have hrun (start : Cache) (hstart : ofConfig "dcache" threeWays = .ok start) :
      ∃ c c', Served start filledAgain c ∧ serve (.fill 0 (List.replicate 8 5) false) c =
        .done (.victim (some ⟨8, false, List.replicate 8 3⟩)) c' := by
    cases hstart
    exact ⟨_, _, .snoc (.snoc (.snoc (.snoc (.snoc .nil (by rfl)) (by rfl)) (by rfl)) (by rfl))
      (by rfl), by rfl⟩
  have hstart : ofConfig "dcache" threeWays = .ok _ := rfl
  obtain ⟨c, c', hrun, hfill⟩ := hrun _ hstart
  obtain ⟨hgives, hoften⟩ := displaces_oldest_fill_iff hstart rfl rfl (by decide)
  refine ⟨_, c, hstart, hrun, ⟨c', hfill⟩, ?_, ?_, hgives _ _ _ _ _ _ _ hrun hfill,
    fun hall => absurd (hoften.mp hall) (by decide)⟩
  · refine (lastNamed_snoc_of_ne ?_).mpr ((lastNamed_snoc_self rfl (by decide)).mpr rfl)
    rintro _ ⟨⟩
    decide
  · refine (lastNamed_snoc_of_ne ?_).mpr ((lastNamed_snoc_of_ne ?_).mpr
      ((lastNamed_snoc_self rfl (by decide)).mpr rfl)) <;>
    · rintro _ ⟨⟩
      decide

end Cache

end EV6
