import EV6.Proofs.Cache.Requests
/-!
The usage stack of a set against the history of requests: of two lines that are there, the one
nearer to the top was used later. The way at the bottom therefore holds the line used longest ago.
-/

namespace EV6

namespace Cache

def usedBy : Request × Answer → Option Word
  | (.fill addr _ _, _) => some addr
  | (.read addr _, .data (some _)) => some addr
  | (.write addr _, .found true) => some addr
  | _ => none

end Cache

namespace CacheSet

variable {s s' : CacheSet} {ways lineBytes way now tag : Nat} {time time' : Nat → Nat → Prop}
  {order : List Nat} {l d : CacheLine}

def Later (s : CacheSet) (time : Nat → Nat → Prop) (way way' : Nat) : Prop :=
  ∀ a b k j, s.lineAt way = some a → s.lineAt way' = some b → time a.tag k → time b.tag j → j < k

/-- The ways stand in the order of the last use of their lines, where `time` gives that of a tag. -/
structure Recent (ways : Nat) (time : Nat → Nat → Prop) (order : List Nat) (s : CacheSet) :
    Prop where
  stack : s.order = .recency order
  perm : order.Perm (List.range ways)
  used : ∀ way l, s.lineAt way = some l → ∃ k, time l.tag k
  sorted : order.Pairwise (s.Later time)

namespace Recent

theorem unused (h : s.Recent ways time order) (ho : s'.order = s.order)
    (hlines : s.Thins s')
    (htime : ∀ i a k, s.lineAt i = some a → (time' a.tag k ↔ time a.tag k)) :
    s'.Recent ways time' order := by
  refine ⟨ho.trans h.stack, h.perm, ?_, h.sorted.imp ?_⟩
  · intro i a ha
    obtain ⟨a', ha', ht⟩ := hlines i a ha
    obtain ⟨k, hk⟩ := h.used i a' ha'
    exact ⟨k, ht ▸ (htime i a' k ha').mpr hk⟩
  · intro i i' hlater a b k j ha hb hk hj
    obtain ⟨a', ha', hta⟩ := hlines i a ha
    obtain ⟨b', hb', htb⟩ := hlines i' b hb
    rw [← hta, htime i a' k ha'] at hk
    rw [← htb, htime i' b' j hb'] at hj
    exact hlater a' b' k j ha' hb' hk hj

theorem promoted (h : s.Recent ways time order) (hw : way < ways)
    (ho : s'.order = .recency (Replacement.promote order way))
    (hsame : ∀ i, i ≠ way → s'.lineAt i = s.lineAt i) (hl : s'.lineAt way = some l)
    (hnow : ∀ k, time' l.tag k ↔ k = now) (hbefore : ∀ t k, time t k → k < now)
    (htime : ∀ i a k, i ≠ way → s.lineAt i = some a → (time' a.tag k ↔ time a.tag k)) :
    s'.Recent ways time' (Replacement.promote order way) := by
  have hnodup : order.Nodup := h.perm.nodup_iff.mpr List.nodup_range
  have herase {i : Nat} (hi : i ∈ order.erase way) : i ≠ way :=
    (hnodup.mem_erase_iff.mp hi).1
  refine ⟨ho, Replacement.promote_sound h.perm hw, ?_, ?_⟩
  · intro i a ha
    by_cases hi : i = way
    · rw [hi, hl] at ha
      obtain rfl := Option.some.inj ha
      exact ⟨now, (hnow now).mpr rfl⟩
    · rw [hsame i hi] at ha
      obtain ⟨k, hk⟩ := h.used i a ha
      exact ⟨k, (htime i a k hi ha).mpr hk⟩
  · refine List.pairwise_cons.mpr ⟨?_, ?_⟩
    · intro i hi a b k j ha hb hk hj
      have hi := herase hi
      rw [hl] at ha
      obtain rfl := Option.some.inj ha
      rw [hsame i hi] at hb
      rw [hnow] at hk
      rw [htime i b j hi hb] at hj
      exact hk ▸ hbefore _ _ hj
    · refine (h.sorted.sublist List.erase_sublist).imp_of_mem ?_
      intro i i' hi hi' hlater a b k j ha hb hk hj
      rw [hsame i (herase hi)] at ha
      rw [hsame i' (herase hi')] at hb
      rw [htime i a k (herase hi) ha] at hk
      rw [htime i' b j (herase hi') hb] at hj
      exact hlater a b k j ha hb hk hj

theorem displaced (h : s.Recent ways time order) (hs : s.Sound ways lineBytes)
    (hd : s.displaced tag = some d) :
    ∃ k, time d.tag k ∧ ∀ i a, s.lineAt i = some a → a.tag ≠ d.tag → ∃ j, time a.tag j ∧ k < j := by
  obtain ⟨hslot, -⟩ := displaced_eq_some_iff.mp hd
  obtain ⟨k, hk⟩ := h.used _ d hslot
  refine ⟨k, hk, ?_⟩
  intro i a ha hne
  obtain ⟨j, hj⟩ := h.used i a ha
  refine ⟨j, hj, ?_⟩
  have hmem {w : Nat} {x : CacheLine} (hx : s.lineAt w = some x) : w ∈ order :=
    h.perm.mem_iff.mpr (List.mem_range.mpr (hs.length ▸ lineAt_lt hx))
  have hne' : order ≠ [] := List.ne_nil_of_mem (hmem ha)
  have hvictim : s.fillWay tag = order.getLast hne' := by
    rw [fillWay_of_displaced hd, h.stack, Replacement.victim, List.getLastD_eq_getLast?,
      List.getLast?_eq_some_getLast hne', Option.getD_some]
  have hsorted := h.sorted
  have hi := hmem ha
  rw [← List.dropLast_concat_getLast hne', ← hvictim] at hsorted hi
  have hrest : i ∈ order.dropLast := by
    rcases List.mem_append.mp hi with hi | hi
    · exact hi
    · rw [List.mem_singleton.mp hi, hslot] at ha
      obtain rfl := Option.some.inj ha
      exact absurd rfl hne
  exact (List.pairwise_append.mp hsorted).2.2 i hrest _ (List.mem_singleton.mpr rfl) a d j k ha
    hslot hj hk

end Recent

end CacheSet

namespace Cache

variable {c c' start : Cache} {s : CacheSet} {past : List (Request × Answer)} {e : Request × Answer}
  {r : Request} {a : Answer} {addr : Word} {way : Nat} {l : CacheLine}

def Recent (c : Cache) (past : List (Request × Answer)) : Prop :=
  ∀ set, set < c.geometry.sets → ∃ order, (c.sets.get set).Recent c.geometry.ways
    (fun tag => LastNamed usedBy c.lineBytes past (c.geometry.lineAddress set tag)) order

theorem recent_of_unused (hr : c.Recent past) (hu : usedBy e = none)
    (hg : c'.geometry = c.geometry) (ho : ∀ set, (c'.sets.get set).order = (c.sets.get set).order)
    (hlines : ∀ set, (c.sets.get set).Thins (c'.sets.get set)) : c'.Recent (past ++ [e]) := by
  intro set hset
  rw [hg] at hset ⊢
  rw [lineBytes, hg]
  obtain ⟨order, h⟩ := hr set hset
  refine ⟨order, h.unused (ho set) (hlines set) ?_⟩
  intro i a k _
  refine lastNamed_snoc_of_ne ?_
  intro addr he
  rw [hu] at he
  cases he

theorem recent_of_used (h : c.Sound) (hr : c.Recent past) (hu : usedBy e = some addr)
    (hw : way < c.geometry.ways)
    (ho : ∀ order, (c.setAt addr).order = .recency order →
      s.order = .recency (Replacement.promote order way))
    (hsame : ∀ i, i ≠ way → s.lineAt i = (c.setAt addr).lineAt i)
    (hl : s.lineAt way = some l) (ht : l.tag = c.geometry.tagOf addr)
    (hfresh : ∀ i a, i ≠ way → (c.setAt addr).lineAt i = some a → a.tag ≠ c.geometry.tagOf addr) :
    (c.withSet addr s).Recent (past ++ [e]) := by
  intro set (hset : set < c.geometry.sets)
  obtain ⟨order, hset'⟩ := hr set hset
  have hother {i : Nat} {a : CacheLine} (ha : (c.sets.get set).lineAt i = some a)
      (hne : c.base addr ≠ c.geometry.lineAddress set a.tag) (k : Nat) :
      LastNamed usedBy c.lineBytes (past ++ [e]) (c.geometry.lineAddress set a.tag) k ↔
        LastNamed usedBy c.lineBytes past (c.geometry.lineAddress set a.tag) k := by
    refine lastNamed_snoc_of_ne ?_
    intro addr' he
    obtain rfl := Option.some.inj (hu.symm.trans he)
    exact hne
  by_cases hs : set = c.geometry.setOf addr
  · subst hs
    refine ⟨Replacement.promote order way, ?_⟩
    rw [withSet, Table.get_set_self]
    have hbase : c.base addr = c.geometry.lineAddress (c.geometry.setOf addr) l.tag := by
      rw [ht]
      exact (CacheGeometry.lineAddress_eq_lineBase h.lineSize addr).symm
    refine hset'.promoted hw (ho order hset'.stack) hsame hl
      (fun k => lastNamed_snoc_self hu hbase) ?_ ?_
    · intro t k hk
      exact hk.named.lt
    · intro i a k hi ha
      refine hother ha ?_ k
      intro heq
      refine hfresh i a hi ha ?_
      rw [← (holds_slot hset ha).tagOf_eq h, ← heq]
      exact CacheGeometry.tagOf_lineBase h.lineSize addr
  · refine ⟨order, ?_⟩
    rw [withSet, Table.get_set_of_ne _ _ (Ne.symm hs)]
    refine hset'.unused rfl (.refl _) ?_
    intro i a k ha
    refine hother ha ?_ k
    intro heq
    refine hs ?_
    rw [← (holds_slot hset ha).setOf_eq h, ← heq]
    exact setOf_base h addr

theorem Found.recent {k : CacheLine} (hl : c.Found addr way l) (h : c.Sound) (hr : c.Recent past)
    (hu : usedBy e = some addr) (ho : s.order = (c.setAt addr).order.touch way)
    (hsame : ∀ i, i ≠ way → s.lineAt i = (c.setAt addr).lineAt i) (hk : s.lineAt way = some k)
    (ht : k.tag = l.tag) : (c.withSet addr s).Recent (past ++ [e]) := by
  refine recent_of_used h hr hu ((h.sets _).wayOf_lt hl.wayOf) ?_ hsame hk (ht.trans hl.tag) ?_
  · intro order horder
    rw [ho, horder]
    rfl
  · intro i a hi ha htag
    exact hi ((h.sets _).distinct i way a l ha hl.slot (htag.trans hl.tag.symm))

theorem filledBy_of_unused (hu : usedBy e = none) : filledBy e = none := by
  obtain ⟨r, a⟩ := e
  cases r with
  | fill => cases hu
  | _ => rfl

theorem Does.order_eq (hd : c.Does r a c') (hu : usedBy (r, a) = none) (set : Nat) :
    (c'.sets.get set).order = (c.sets.get set).order := by
  cases hd with
  | readMiss | writeMiss | contains | lookup | invalidateMiss | shareMiss => rfl
  | fill | readHit | writeHit => cases hu
  | invalidateHit | shareHit =>
    rw [withSet, Table.get_set]
    split
    · subst set
      rfl
    · rfl
  | flush =>
    rw [cleared, Table.get_map]
    rfl

theorem Does.recent (hd : c.Does r a c') (h : c.Sound) (hr : c.Recent past) :
    c'.Recent (past ++ [(r, a)]) := by
  cases hu : usedBy (r, a) with
  | none =>
    exact recent_of_unused hr hu hd.geometry (hd.order_eq hu) (hd.thins (filledBy_of_unused hu))
  | some used =>
    cases hd with
    | @fill addr data dirty whole =>
      have hlt : (c.setAt addr).fillWay (c.geometry.tagOf addr) < c.geometry.ways :=
        (h.sets _).fillWay_lt h.ways_pos
      refine recent_of_used h hr rfl hlt ?_ (fun i hi => CacheSet.lineAt_put_ne hi)
        (CacheSet.lineAt_put_self ((h.sets _).length ▸ hlt)) rfl ?_
      · intro order ho
        rw [CacheSet.fill_eq, ho]
        rfl
      · intro i k hi hk
        exact CacheSet.fill_fresh (h.sets _) hi hk
    | readHit hit =>
      have hl := found hit
      exact hl.recent h hr rfl rfl (fun _ _ => rfl) hl.slot rfl
    | @writeHit addr data way l hit within =>
      have hl := found hit
      exact hl.recent h hr rfl rfl (fun i hi => CacheSet.lineAt_put_ne hi)
        (CacheSet.lineAt_put_self (CacheSet.lineAt_lt hl.slot)) rfl
    | _ => cases hu

theorem recent_ofConfig {name : String} {cfg : CacheConfig} (hc : ofConfig name cfg = .ok c)
    (hp : cfg.policy = .leastRecent) : c.Recent [] := by
  obtain ⟨_, _, hc⟩ := ConfigFailure.bind_eq_ok hc
  obtain ⟨_, _, hc⟩ := ConfigFailure.ofBreach_then hc
  cases hc
  intro set _
  refine ⟨List.range cfg.ways, ?_⟩
  rw [Table.get_ofBlank]
  refine ⟨?_, List.Perm.refl _, ?_, List.pairwise_of_forall fun w w' a b k j ha => ?_⟩
  · rw [CacheSet.empty, hp]
    rfl
  · intro way l hl
    rw [CacheSet.lineAt_empty] at hl
    cases hl
  · rw [CacheSet.lineAt_empty] at ha
    cases ha

theorem Served.recent (hr : Served start past c) (h : start.Sound) (he : start.enabled = true)
    (hstart : start.Recent []) : c.Recent past := by
  induction hr with
  | nil => exact hstart
  | snoc hpast hs ih =>
    obtain ⟨hc, hce, -⟩ := hpast.sound h he
    exact (does_of_serve hc hce hs).recent hc ih

theorem displaces_least_recent {name : String} {cfg : CacheConfig} {start c : Cache}
    {past : List (Request × Answer)} (hstart : ofConfig name cfg = .ok start)
    (he : cfg.enabled = true) (hp : cfg.policy = .leastRecent) (hrun : Served start past c) :
    (∀ set, set < cfg.sets → ∃ order, (c.sets.get set).order = .recency order ∧
      order.Perm (List.range cfg.ways)) ∧
    ∀ addr data dirty v c', serve (.fill addr data dirty) c = .done (.victim (some v)) c' →
      ∃ way l k, c.Holds ((CacheGeometry.ofConfig cfg).setOf addr) way v.addr l ∧
        v = ⟨v.addr, l.dirty, l.data⟩ ∧ LastNamed usedBy cfg.lineBytes past v.addr k ∧
        ∀ way' b l', c.Holds ((CacheGeometry.ofConfig cfg).setOf addr) way' b l' → b ≠ v.addr →
          ∃ j, LastNamed usedBy cfg.lineBytes past b j ∧ k < j := by
  obtain ⟨hs, -, hen, -⟩ := ofConfig_spec hstart
  obtain ⟨hc, hce, hcg⟩ := hrun.sound hs (hen.trans he)
  have hg : c.geometry = .ofConfig cfg := hcg.trans (geometry_ofConfig hstart)
  have hbytes : c.lineBytes = cfg.lineBytes := congrArg CacheGeometry.lineBytes hg
  have hrecent := hrun.recent hs (hen.trans he) (recent_ofConfig hstart hp)
  rw [← hg, ← hbytes]
  constructor
  · intro set hset
    obtain ⟨order, h⟩ := hrecent set (by rw [hg]; exact hset)
    refine ⟨order, h.stack, ?_⟩
    have hperm := h.perm
    rwa [hg] at hperm
  · intro addr data dirty v c' hserve
    obtain ⟨order, h⟩ := hrecent _ (setOf_lt hc addr)
    have hv : c.displaced addr = some v := by
      generalize ha : Answer.victim (some v) = a at hserve
      cases does_of_serve hc hce hserve
      exact (Answer.victim.inj ha).symm
    obtain ⟨d, hd, rfl⟩ := Option.map_eq_some_iff.mp hv
    obtain ⟨hslot, -⟩ := CacheSet.displaced_eq_some_iff.mp hd
    obtain ⟨k, hk, hlater⟩ := h.displaced (hc.sets _) hd
    refine ⟨_, d, k, holds_slot (setOf_lt hc addr) hslot, rfl, hk, ?_⟩
    intro way' b l hl hne
    obtain ⟨j, hj, hkj⟩ := hlater way' l hl.slot (fun ht => hne (by rw [← hl.address, ht]; rfl))
    rw [hl.address] at hj
    exact ⟨j, hj, hkj⟩

def readAgain : List (Request × Answer) :=
  [(.fill 0 (List.replicate 8 1) false, .victim none),
    (.fill 8 (List.replicate 8 2) true, .victim none),
    (.read 0 1, .data (some [1])), (.write 8 [3], .found true), (.read 3 1, .data (some [1]))]

theorem displaces_least_recent_read_again :
    ∃ start c, ofConfig "dcache" twoWays = .ok start ∧ twoWays.enabled = true ∧
      twoWays.policy = .leastRecent ∧ Served start readAgain c ∧
      (∃ c', serve (.fill 16 (List.replicate 8 4) false) c =
        .done (.victim (some ⟨8, true, 3 :: List.replicate 7 2⟩)) c') ∧
      ∃ way l k, c.Holds 0 way 8 l ∧ l.data = 3 :: List.replicate 7 2 ∧
        LastNamed usedBy 8 readAgain 8 k ∧
        ∀ way' b l', c.Holds 0 way' b l' → b ≠ 8 →
          ∃ j, LastNamed usedBy 8 readAgain b j ∧ k < j := by
  have hrun (start : Cache) (hstart : ofConfig "dcache" twoWays = .ok start) :
      ∃ c c', Served start readAgain c ∧ serve (.fill 16 (List.replicate 8 4) false) c =
        .done (.victim (some ⟨8, true, 3 :: List.replicate 7 2⟩)) c' := by
    cases hstart
    exact ⟨_, _, .snoc (.snoc (.snoc (.snoc (.snoc .nil (by rfl)) (by rfl)) (by rfl)) (by rfl))
      (by rfl), by rfl⟩
  have hstart : ofConfig "dcache" twoWays = .ok _ := rfl
  obtain ⟨c, c', hrun, hfill⟩ := hrun _ hstart
  obtain ⟨way, l, k, hl, hv, hk, hlater⟩ := (displaces_least_recent hstart
    (show twoWays.enabled = true from rfl) rfl hrun).2 _ _ _ _ _ hfill
  exact ⟨_, c, hstart, rfl, rfl, hrun, ⟨c', hfill⟩, way, l, k, hl, (Victim.mk.inj hv).2.2.symm, hk,
    hlater⟩

end Cache

end EV6
