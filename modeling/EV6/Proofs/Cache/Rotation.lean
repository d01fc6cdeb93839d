import EV6.Proofs.Cache.Recency
/-!
The rotating pointer of a set against the history of fills. A fill of the way under the pointer moves
it on, and no other fill does, so the pointer only tells the lines of the ways that it has passed
since a line was filled: they were filled later.
-/

namespace EV6

namespace Replacement

variable {ways start way way' : Nat}

/-- How many ways a pointer passes on its way around from one to another. -/
def steps (ways start way : Nat) : Nat := (way + ways - start) % ways

theorem steps_eq (hs : start < ways) (hw : way < ways) :
    steps ways start way = if start ≤ way then way - start else way + ways - start := by
  unfold steps
  split
  · rw [show way + ways - start = way - start + ways by omega, Nat.add_mod_right,
      Nat.mod_eq_of_lt (by omega)]
  · exact Nat.mod_eq_of_lt (by omega)

theorem steps_self (hs : start < ways) : steps ways start start = 0 := by simp [steps_eq hs hs]

theorem steps_inj (hs : start < ways) (hw : way < ways) (hw' : way' < ways)
    (h : steps ways start way = steps ways start way') : way = way' := by
  rw [steps_eq hs hw, steps_eq hs hw'] at h
  split at h <;> split at h <;> omega

theorem steps_succ (hs : start < ways) (hw : way < ways) (h : steps ways start way + 1 < ways) :
    steps ways start ((way + 1) % ways) = steps ways start way + 1 := by
  have hnext := steps_eq hs (Nat.mod_lt (way + 1) (Nat.zero_lt_of_lt hw))
  rw [steps_eq hs hw] at h ⊢
  rw [hnext]
  by_cases hlast : way + 1 = ways
  · rw [hlast, Nat.mod_self]
    split at h <;> split <;> omega
  · rw [Nat.mod_eq_of_lt (Nat.lt_of_le_of_ne hw hlast)]
    split at h <;> split <;> omega

theorem steps_lt (hs : start < ways) : steps ways start way < ways :=
  Nat.mod_lt _ (Nat.zero_lt_of_lt hs)

theorem steps_past (hw : way < ways) : steps ways ((way + 1) % ways) way = ways - 1 := by
  rw [steps_eq (Nat.mod_lt _ (Nat.zero_lt_of_lt hw)) hw]
  by_cases hlast : way + 1 = ways
  · rw [hlast, Nat.mod_self, if_pos (Nat.zero_le _)]
    omega
  · rw [Nat.mod_eq_of_lt (by omega), if_neg (by omega)]
    omega

def advanced (ways next way : Nat) : Nat := if next = way then (way + 1) % ways else next

theorem filled_rotating (ways next way : Nat) :
    (rotating next).filled ways way = rotating (advanced ways next way) := rfl

theorem advanced_lt {next : Nat} (hn : next < ways) : advanced ways next way < ways := by
  unfold advanced
  split
  · exact Nat.mod_lt _ (Nat.zero_lt_of_lt hn)
  · exact hn

theorem advanced_ne {next : Nat} (h : 2 ≤ ways) (hw : way < ways) :
    advanced ways next way ≠ way := by
  unfold advanced
  split
  · by_cases hlast : way + 1 = ways
    · rw [hlast, Nat.mod_self]
      omega
    · rw [Nat.mod_eq_of_lt (by omega)]
      omega
  · assumption

end Replacement

open Replacement

namespace CacheSet

variable {s s' : CacheSet} {ways way next : Nat} {filled filled' : Nat → Nat → Nat → Prop}
  {l : CacheLine}

/-- What the pointer tells of a line that was last filled when it was left at `left`. -/
structure Swept (ways next : Nat) (filled : Nat → Nat → Nat → Prop) (s : CacheSet)
    (way now left : Nat) : Prop where
  left_lt : left < ways
  left_ne : 2 ≤ ways → left ≠ way
  within : steps ways left next ≤ steps ways left way
  later : ∀ i a j left', s.lineAt i = some a → filled a.tag j left' →
    steps ways left i < steps ways left next → now < j

/-- The pointer of a set, where `filled` gives the last fill of a tag and the pointer after it. -/
structure Rotated (ways next : Nat) (filled : Nat → Nat → Nat → Prop) (s : CacheSet) : Prop where
  pointer : s.order = .rotating next
  next_lt : next < ways
  known : ∀ i a, s.lineAt i = some a → ∃ k left, filled a.tag k left
  swept : ∀ i a k left, s.lineAt i = some a → filled a.tag k left →
    Swept ways next filled s i k left

theorem Rotated.thinned (h : s.Rotated ways next filled) (ho : s'.order = .rotating next)
    (hlines : s.Thins s')
    (hf : ∀ i a k left, s.lineAt i = some a → (filled' a.tag k left ↔ filled a.tag k left)) :
    s'.Rotated ways next filled' := by
  refine ⟨ho, h.next_lt, fun i a ha => ?_, fun i a k left ha hfill => ?_⟩
  · obtain ⟨a', ha', htag⟩ := hlines i a ha
    obtain ⟨k, left, hfill⟩ := h.known i a' ha'
    exact ⟨k, left, htag ▸ (hf i a' k left ha').mpr hfill⟩
  · obtain ⟨a', ha', htag⟩ := hlines i a ha
    rw [← htag, hf i a' k left ha'] at hfill
    have hswept := h.swept i a' k left ha' hfill
    refine ⟨hswept.left_lt, hswept.left_ne, hswept.within, fun j b m left' hb hm => ?_⟩
    obtain ⟨b', hb', htag'⟩ := hlines j b hb
    rw [← htag', hf j b' m left' hb'] at hm
    exact hswept.later j b' m left' hb' hm

theorem Swept.advance {i k left : Nat} (h : Swept ways next filled s i k left) (hi : i < ways)
    (hne : i ≠ way) (hn : next < ways) :
    steps ways left (advanced ways next way) ≤ steps ways left i ∧
      ∀ j < ways, steps ways left j < steps ways left (advanced ways next way) →
        j = way ∨ steps ways left j < steps ways left next := by
  by_cases hunder : next = way
  · subst hunder
    have hlt : steps ways left next < steps ways left i :=
      Nat.lt_of_le_of_ne h.within fun heq => hne (steps_inj h.left_lt hn hi heq).symm
    have hbound : steps ways left i < ways := steps_lt h.left_lt
    rw [advanced, if_pos rfl, steps_succ h.left_lt hn (by omega)]
    refine ⟨hlt, fun j hj hsteps => ?_⟩
    rcases Nat.lt_or_eq_of_le (Nat.le_of_lt_succ hsteps) with hpassed | hsame
    · exact .inr hpassed
    · exact .inl (steps_inj h.left_lt hj hn hsame)
  · rw [advanced, if_neg hunder]
    exact ⟨h.within, fun _ _ => .inr⟩

theorem Rotated.fill (now : Nat) (h : s.Rotated ways next filled) (hw : way < ways)
    (hlines : ∀ i a, s.lineAt i = some a → i < ways)
    (ho : s'.order = (rotating next).filled ways way)
    (hsame : ∀ i, i ≠ way → s'.lineAt i = s.lineAt i) (hl : s'.lineAt way = some l)
    (hnow : ∀ k left, filled' l.tag k left ↔ k = now ∧ left = advanced ways next way)
    (hbefore : ∀ tag k left, filled tag k left → k < now)
    (hother : ∀ i a k left, i ≠ way → s.lineAt i = some a →
      (filled' a.tag k left ↔ filled a.tag k left)) :
    s'.Rotated ways (advanced ways next way) filled' := by
  have hlt : advanced ways next way < ways := advanced_lt h.next_lt
  have hline {i : Nat} {a : CacheLine} (hi : i = way) (ha : s'.lineAt i = some a) : a = l := by
    rw [hi, hl] at ha
    exact (Option.some.inj ha).symm
  refine ⟨ho, hlt, fun i a ha => ?_, fun i a k left ha hfill => ?_⟩
  · by_cases hi : i = way
    · rw [hline hi ha]
      exact ⟨now, _, (hnow _ _).mpr ⟨rfl, rfl⟩⟩
    · rw [hsame i hi] at ha
      obtain ⟨k, left, hk⟩ := h.known i a ha
      exact ⟨k, left, (hother i a k left hi ha).mpr hk⟩
  · by_cases hi : i = way
    · rw [hline hi ha] at hfill
      obtain ⟨rfl, rfl⟩ := (hnow k left).mp hfill
      subst hi
      refine ⟨hlt, fun h2 => advanced_ne h2 hw, ?_, fun j b m left' _ _ hj => ?_⟩
      · simp [steps_self hlt]
      · simp [steps_self hlt] at hj
    · rw [hsame i hi] at ha
      have hold := (hother i a k left hi ha).mp hfill
      have hswept := h.swept i a k left ha hold
      obtain ⟨hwithin, hpassed⟩ := hswept.advance (hlines i a ha) hi h.next_lt
      refine ⟨hswept.left_lt, hswept.left_ne, hwithin, fun j b m left' hb hm hj => ?_⟩
      by_cases hj' : j = way
      · rw [hline hj' hb, hnow] at hm
        exact hm.1 ▸ hbefore _ _ _ hold
      · rw [hsame j hj'] at hb
        have hj := (hpassed j (hlines j b hb) hj).resolve_left hj'
        exact hswept.later j b m left' hb ((hother j b m left' hj' hb).mp hm) hj

theorem Rotated.displaced {tag : Nat} {d : CacheLine} (h : s.Rotated ways next filled)
    (hd : s.displaced tag = some d) :
    s.lineAt next = some d ∧ ∃ k left, filled d.tag k left ∧ left < ways ∧
      (2 ≤ ways → left ≠ next) ∧ ∀ i a j left', s.lineAt i = some a → filled a.tag j left' →
        steps ways left i < steps ways left next → k < j := by
  have hslot := (displaced_eq_some_iff.mp hd).1
  rw [fillWay_of_displaced hd, h.pointer] at hslot
  obtain ⟨k, left, hk⟩ := h.known _ d hslot
  have hswept := h.swept _ d k left hslot hk
  exact ⟨hslot, k, left, hk, hswept.left_lt, hswept.left_ne, hswept.later⟩

end CacheSet

namespace Cache

variable {c c' start : Cache} {past : List (Request × Answer)} {e : Request × Answer}
  {r : Request} {a : Answer} {b addr : Word} {set way k left : Nat} {l : CacheLine}

theorem served_snoc_iff : Served start (past ++ [(r, a)]) c' ↔
    ∃ c, Served start past c ∧ serve r c = .done a c' := by
  constructor
  · intro h
    generalize hall : past ++ [(r, a)] = all at h
    cases h with
    | nil => simp at hall
    | snoc hpast hs =>
      obtain ⟨rfl, hlast⟩ := List.append_inj' hall rfl
      cases hlast
      exact ⟨_, hpast, hs⟩
  · rintro ⟨c, hpast, hs⟩
    exact hpast.snoc hs

theorem Served.unique (h : Served start past c) (h' : Served start past c') : c = c' := by
  induction h generalizing c' with
  | nil =>
    generalize hall : ([] : List (Request × Answer)) = all at h'
    cases h' with
    | nil => rfl
    | snoc => simp at hall
  | snoc _ hs ih =>
    obtain ⟨d, hd, hs'⟩ := served_snoc_iff.mp h'
    obtain rfl := ih hd
    rw [hs] at hs'
    cases hs'
    rfl

structure LastFill (start : Cache) (set : Nat) (past : List (Request × Answer)) (b : Word)
    (k left : Nat) : Prop where
  last : LastNamed filledBy start.lineBytes past b k
  left : ∃ after, Served start (past.take (k + 1)) after ∧
    (after.sets.get set).order = .rotating left

theorem LastFill.lt (h : LastFill start set past b k left) : k < past.length := h.last.named.lt

theorem lastFill_snoc_of_ne
    (hne : ∀ addr, filledBy e = some addr → Address.lineBase addr start.lineBytes ≠ b) :
    LastFill start set (past ++ [e]) b k left ↔ LastFill start set past b k left := by
  have htake (hk : k < past.length) : (past ++ [e]).take (k + 1) = past.take (k + 1) :=
    List.take_append_of_le_length hk
  constructor
  · rintro ⟨hlast, hleft⟩
    have hlast := (lastNamed_snoc_of_ne hne).mp hlast
    exact ⟨hlast, htake hlast.named.lt ▸ hleft⟩
  · intro h
    exact ⟨(lastNamed_snoc_of_ne hne).mpr h.last, (htake h.lt).symm ▸ h.left⟩

theorem lastFill_snoc_self {next : Nat} (hf : filledBy e = some addr)
    (hb : Address.lineBase addr start.lineBytes = b) (hrun : Served start (past ++ [e]) c)
    (ho : (c.sets.get set).order = .rotating next) :
    LastFill start set (past ++ [e]) b k left ↔ k = past.length ∧ left = next := by
  have htake : (past ++ [e]).take (past.length + 1) = past ++ [e] :=
    List.take_of_length_le (by simp)
  constructor
  · rintro ⟨hlast, after, hafter, hleft⟩
    obtain rfl := (lastNamed_snoc_self hf hb).mp hlast
    obtain rfl := hrun.unique (htake ▸ hafter)
    rw [ho] at hleft
    exact ⟨rfl, (Replacement.rotating.inj hleft).symm⟩
  · rintro ⟨rfl, rfl⟩
    exact ⟨(lastNamed_snoc_self hf hb).mpr rfl, c, htake.symm ▸ hrun, ho⟩

theorem Does.pointer (hd : c.Does r a c') (hf : filledBy (r, a) = none) {next : Nat}
    (ho : (c.sets.get set).order = .rotating next) : (c'.sets.get set).order = .rotating next := by
  have hsame {addr : Word} {s : CacheSet} (hs : (c.setAt addr).order = .rotating next →
      s.order = .rotating next) : ((c.withSet addr s).sets.get set).order = .rotating next := by
    rw [withSet, Table.get_set]
    split
    · subst set
      exact hs ho
    · exact ho
  cases hd with
  | readMiss | writeMiss | contains | lookup | invalidateMiss | shareMiss => exact ho
  | fill => cases hf
  | readHit | writeHit => exact hsame fun hs => congrArg (Replacement.touch · _) hs
  | invalidateHit | shareHit => exact hsame id
  | flush =>
    rw [cleared, Table.get_map]
    exact ho

def Rotated (start : Cache) (past : List (Request × Answer)) (c : Cache) : Prop :=
  ∀ set, set < start.geometry.sets → ∃ next, (c.sets.get set).Rotated start.geometry.ways next
    fun tag => LastFill start set past (start.geometry.lineAddress set tag)

theorem lastFill_of_held (h : c.Sound) (hg : c.geometry = start.geometry)
    (hset : set < c.geometry.sets) (hl : (c.sets.get set).lineAt way = some l)
    (hne : ∀ addr, filledBy e = some addr → c.geometry.setOf addr = set →
      c.geometry.tagOf addr ≠ l.tag) :
    LastFill start set (past ++ [e]) (start.geometry.lineAddress set l.tag) k left ↔
      LastFill start set past (start.geometry.lineAddress set l.tag) k left := by
  have hheld := holds_slot hset hl
  rw [hg] at hheld
  refine lastFill_snoc_of_ne fun addr hf heq => ?_
  have hbase : c.base addr = start.geometry.lineAddress set l.tag := by
    rw [base, lineBytes, hg]
    exact heq
  refine hne addr hf ?_ ?_
  · rw [← setOf_base h addr, hbase, hheld.setOf_eq h]
  · rw [← hheld.tagOf_eq h, ← hbase]
    exact (CacheGeometry.tagOf_lineBase h.lineSize addr).symm

theorem addr_of_filledBy (hf : filledBy (r, a) = some addr) : r.addr? = some addr := by
  cases r with
  | fill => exact hf
  | _ => cases hf

theorem rotated_filled {data : List Byte} {dirty : Bool} {next : Nat} (h : c.Sound)
    (hg : c.geometry = start.geometry) (hf : filledBy e = some addr)
    (hrun : Served start (past ++ [e]) (c.filled addr data dirty))
    (hrot : (c.setAt addr).Rotated start.geometry.ways next fun tag =>
      LastFill start (c.geometry.setOf addr) past
        (start.geometry.lineAddress (c.geometry.setOf addr) tag)) :
    ∃ next', (c.setAt addr |>.fill ⟨c.geometry.tagOf addr, dirty, false, data⟩).Rotated
      start.geometry.ways next' fun tag =>
        LastFill start (c.geometry.setOf addr) (past ++ [e])
          (start.geometry.lineAddress (c.geometry.setOf addr) tag) := by
  have hs : (c.setAt addr).Sound c.geometry.ways c.lineBytes := h.sets _
  have hlt : (c.setAt addr).fillWay (c.geometry.tagOf addr) < c.geometry.ways :=
    hs.fillWay_lt h.ways_pos
  have hbytes : start.lineBytes = c.lineBytes := congrArg CacheGeometry.lineBytes hg.symm
  have horder : ((c.setAt addr).fill ⟨c.geometry.tagOf addr, dirty, false, data⟩).order =
      .rotating (advanced start.geometry.ways next
        ((c.setAt addr).fillWay (c.geometry.tagOf addr))) := by
    rw [CacheSet.fill_eq, hrot.pointer, hs.length, hg, filled_rotating]
  refine ⟨_, hrot.fill past.length (hg ▸ hlt) ?_ horder
    (fun i hi => CacheSet.lineAt_put_ne hi) (CacheSet.lineAt_put_self (hs.length ▸ hlt)) ?_ ?_ ?_⟩
  · intro i x hx
    exact hg ▸ hs.length ▸ CacheSet.lineAt_lt hx
  · intro k left
    refine lastFill_snoc_self hf ?_ hrun ?_
    · rw [← hg, hbytes]
      exact (CacheGeometry.lineAddress_eq_lineBase h.lineSize addr).symm
    · rw [filled, withSet, Table.get_set_self]
      exact horder
  · intro tag k left hk
    exact hk.lt
  · intro i x k left hi hx
    refine lastFill_of_held h hg (setOf_lt h addr) hx fun addr' hf' _ => ?_
    obtain rfl := Option.some.inj (hf.symm.trans hf')
    exact (CacheSet.fill_fresh hs hi hx).symm

theorem Does.rotated (hd : c.Does r a c') (h : c.Sound) (hg : c.geometry = start.geometry)
    (hrun : Served start (past ++ [(r, a)]) c') (hr : Rotated start past c) :
    Rotated start (past ++ [(r, a)]) c' := by
  intro set hset
  obtain ⟨next, hrot⟩ := hr set hset
  rw [← hg] at hset
  by_cases hfills : ∃ addr, filledBy (r, a) = some addr ∧ c.geometry.setOf addr = set
  · obtain ⟨addr, hf, rfl⟩ := hfills
    cases hd with
    | fill whole =>
      obtain rfl := Option.some.inj hf
      obtain ⟨next', hnext⟩ := rotated_filled h hg hf hrun hrot
      refine ⟨next', ?_⟩
      rw [filled, withSet, Table.get_set_self]
      exact hnext
    | _ => cases hf
  · have hothers (i : Nat) (x : CacheLine) (k left : Nat)
        (hx : (c.sets.get set).lineAt i = some x) :
        LastFill start set (past ++ [(r, a)]) (start.geometry.lineAddress set x.tag) k left ↔
          LastFill start set past (start.geometry.lineAddress set x.tag) k left :=
      lastFill_of_held h hg hset hx fun addr hf hs => absurd ⟨addr, hf, hs⟩ hfills
    refine ⟨next, ?_⟩
    cases hf : filledBy (r, a) with
    | none => exact hrot.thinned (hd.pointer hf hrot.pointer) (hd.thins hf set) hothers
    | some addr =>
      rw [hd.elsewhere (addr_of_filledBy hf) fun hs => hfills ⟨addr, hf, hs.symm⟩]
      exact hrot.thinned hrot.pointer (.refl _) hothers

theorem rotated_ofConfig {name : String} {cfg : CacheConfig} (hc : ofConfig name cfg = .ok start)
    (hp : cfg.policy = .roundRobin) (h : start.Sound) : Rotated start [] start := by
  obtain ⟨_, _, hc⟩ := ConfigFailure.bind_eq_ok hc
  obtain ⟨_, _, hc⟩ := ConfigFailure.ofBreach_then hc
  cases hc
  intro set _
  refine ⟨0, ?_⟩
  rw [Table.get_ofBlank]
  refine ⟨?_, h.ways_pos, fun i a ha => ?_, fun i a k left ha => ?_⟩
  · simp [CacheSet.empty, hp, ofPolicy]
  · simp [CacheSet.lineAt_empty] at ha
  · simp [CacheSet.lineAt_empty] at ha

theorem Served.rotated (hr : Served start past c) (h : start.Sound) (he : start.enabled = true)
    (hstart : Rotated start [] start) : Rotated start past c := by
  induction hr with
  | nil => exact hstart
  | snoc hpast hs ih =>
    obtain ⟨hc, hce, hg⟩ := hpast.sound h he
    exact (does_of_serve hc hce hs).rotated hc hg (hpast.snoc hs) ih

end Cache

end EV6
