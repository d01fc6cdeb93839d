import EV6.Proofs.Cache.Requests
import Mathlib.Data.List.Nodup
/-!
Maps from base addresses to lines: what requests of a cache do to such a map, and that an enabled
cache of any configuration does it. A line leaves the map only when its set is full or by request,
and a dirty one never without being handed over.
-/

namespace EV6

structure LineState where
  data : List Byte
  dirty : Bool
  shared : Bool
  deriving DecidableEq, Repr

namespace LineState

def victim (b : Word) (s : LineState) : Victim := ⟨b, s.dirty, s.data⟩

def written (s : LineState) (offset : Nat) (data : List Byte) : LineState :=
  ⟨Block.splice s.data offset data, true, false⟩

def cleaned (s : LineState) : LineState := { s with dirty := false, shared := true }

def withTag (tag : Nat) (s : LineState) : CacheLine := ⟨tag, s.dirty, s.shared, s.data⟩

end LineState

def CacheLine.lineState (l : CacheLine) : LineState := ⟨l.data, l.dirty, l.shared⟩

abbrev LineMap := Word → Option LineState

namespace LineMap

variable {g : CacheGeometry} {m m' : LineMap} {r : Cache.Request} {a : Cache.Answer} {b b' : Word}
  {s : LineState} {x : Option LineState}

def put (m : LineMap) (b : Word) (x : Option LineState) : LineMap :=
  fun b' => if b' = b then x else m b'

@[simp] theorem put_self : m.put b x b = x := if_pos rfl

theorem put_of_ne (h : b' ≠ b) : m.put b x b' = m b' := if_neg h

theorem put_eq_self (h : m b = x) : m.put b x = m := by
  funext b'
  by_cases hb : b' = b
  · rw [hb, put_self, h]
  · rw [put_of_ne hb]

structure Occupied (g : CacheGeometry) (m : LineMap) (set : Nat) (bases : List Word) : Prop where
  nodup : bases.Nodup
  mem : ∀ b, b ∈ bases ↔ m b ≠ none ∧ g.setOf b = set

def Bounded (g : CacheGeometry) (m : LineMap) : Prop :=
  ∀ set < g.sets, ∃ bases, Occupied g m set bases ∧ bases.length ≤ g.ways

def Full (g : CacheGeometry) (m : LineMap) (set : Nat) : Prop :=
  ∃ bases, Occupied g m set bases ∧ bases.length = g.ways

/-- What a request may answer on a map, and the map that it leaves. Only which line of a full set
gives way to a new one is left open. -/
inductive Serves (g : CacheGeometry) (m : LineMap) : Cache.Request → Cache.Answer → LineMap → Prop
  where
  | replace {addr b : Word} {data : List Byte} {dirty : Bool}
      (hb : b = Address.lineBase addr g.lineBytes) (present : m b ≠ none) :
      Serves g m (.fill addr data dirty) (.victim none) (m.put b (some ⟨data, dirty, false⟩))
  | install {addr b : Word} {data : List Byte} {dirty : Bool}
      (hb : b = Address.lineBase addr g.lineBytes) (absent : m b = none) :
      Serves g m (.fill addr data dirty) (.victim none) (m.put b (some ⟨data, dirty, false⟩))
  | displace {addr b v : Word} {data : List Byte} {dirty : Bool} {s : LineState}
      (hb : b = Address.lineBase addr g.lineBytes) (absent : m b = none) (held : m v = some s)
      (sameSet : g.setOf v = g.setOf addr) (full : Full g m (g.setOf addr)) :
      Serves g m (.fill addr data dirty) (.victim (some (s.victim v)))
        ((m.put v none).put b (some ⟨data, dirty, false⟩))
  | read {addr b : Word} {length : Nat} (hb : b = Address.lineBase addr g.lineBytes) :
      Serves g m (.read addr length)
        (.data ((m b).map fun s => Block.slice s.data (addr.toNat % g.lineBytes) length)) m
  | write {addr b : Word} {data : List Byte} (hb : b = Address.lineBase addr g.lineBytes) :
      Serves g m (.write addr data) (.found (m b).isSome)
        (m.put b ((m b).map fun s => s.written (addr.toNat % g.lineBytes) data))
  | contains {addr b : Word} (hb : b = Address.lineBase addr g.lineBytes) :
      Serves g m (.contains addr) (.found (m b).isSome) m
  | lookup {addr b : Word} (hb : b = Address.lineBase addr g.lineBytes) :
      Serves g m (.lookup addr) (.line ((m b).map fun s => s.withTag (g.tagOf addr))) m
  | invalidate {addr b : Word} (hb : b = Address.lineBase addr g.lineBytes) :
      Serves g m (.invalidate addr) (.victim ((m b).map fun s => s.victim b)) (m.put b none)
  | share {addr b : Word} (hb : b = Address.lineBase addr g.lineBytes) :
      Serves g m (.share addr)
        (.victim (((m b).filter fun s => s.dirty).map fun s => s.victim b))
        (m.put b ((m b).map LineState.cleaned))
  | flush {vs : List Victim} (once : (vs.map Victim.addr).Nodup)
      (dirty : ∀ v, v ∈ vs ↔ ∃ b s, m b = some s ∧ s.dirty = true ∧ v = s.victim b) :
      Serves g m .flush (.victims vs) fun _ => none

inductive Run (g : CacheGeometry) : List (Cache.Request × Cache.Answer) → LineMap → Prop where
  | nil : Run g [] fun _ => none
  | snoc {past : List (Cache.Request × Cache.Answer)} {m m' : LineMap} {r : Cache.Request}
      {a : Cache.Answer} : Run g past m → Serves g m r a m' → Run g (past ++ [(r, a)]) m'

theorem Serves.hands_over (h : Serves g m r a m') (hs : m b = some s) (hd : s.dirty = true)
    (hb' : m' b = none) : s.victim b ∈ a.handedOver := by
  have put_some_ne {m : LineMap} {b₀ : Word} {s₀ : LineState} (hn : m.put b₀ (some s₀) b = none) :
      b ≠ b₀ ∧ m b = none := by
    by_cases heq : b = b₀
    · rw [heq, put_self] at hn
      cases hn
    · rw [put_of_ne heq] at hn
      exact ⟨heq, hn⟩
  have put_map_ne {b₀ : Word} {f : LineState → LineState} : ¬m.put b₀ ((m b₀).map f) b = none := by
    intro hn
    by_cases heq : b = b₀
    · rw [heq, put_self, ← heq, hs] at hn
      cases hn
    · rw [put_of_ne heq, hs] at hn
      cases hn
  cases h with
  | replace | install =>
    obtain ⟨-, hn⟩ := put_some_ne hb'
    rw [hs] at hn
    cases hn
  | @displace addr b₀ v data dirty t _ _ held =>
    obtain ⟨-, hn⟩ := put_some_ne hb'
    by_cases heq : b = v
    · subst heq
      obtain rfl : s = t := Option.some.inj (hs.symm.trans held)
      exact List.mem_singleton.mpr rfl
    · rw [put_of_ne heq, hs] at hn
      cases hn
  | read | contains | lookup =>
    rw [hs] at hb'
    cases hb'
  | write | share => exact absurd hb' put_map_ne
  | @invalidate addr b₀ =>
    by_cases heq : b = b₀
    · subst heq
      rw [hs]
      exact List.mem_singleton.mpr rfl
    · rw [put_of_ne heq, hs] at hb'
      cases hb'
  | flush once dirty => exact (dirty _).mpr ⟨b, s, hs, hd, rfl⟩

end LineMap

namespace Cache

variable {c c' start : Cache} {r : Request} {a : Answer} {addr b : Word} {set set' way way' : Nat}
  {l l' : CacheLine} {s : LineState} {m : LineMap} {f : Nat → Option CacheLine}

structure Represents (c : Cache) (m : LineMap) : Prop where
  lines : ∀ b s, m b = some s ↔ ∃ set way l, c.Holds set way b l ∧ l.lineState = s
  based : ∀ set way b l, c.Holds set way b l →
    Address.lineBase b c.lineBytes = b ∧ c.geometry.setOf b = set ∧ l.data.length = c.lineBytes
  once : ∀ set way b l set' way' l', c.Holds set way b l → c.Holds set' way' b l' →
    set = set' ∧ way = way'

def lineMap (c : Cache) : LineMap := fun b =>
  if c.base b = b then (c.line (c.number b)).map CacheLine.lineState else none

theorem lineMap_eq_some_iff (h : c.Sound) :
    c.lineMap b = some s ↔ ∃ set way l, c.Holds set way b l ∧ l.lineState = s := by
  have hholds (l : CacheLine) : (∃ set way, c.Holds set way b l) ↔
      c.base b = b ∧ c.line (c.number b) = some l := holds_iff h
  rw [lineMap]
  constructor
  · intro hm
    split at hm
    · obtain ⟨l, hl, hs⟩ := Option.map_eq_some_iff.mp hm
      obtain ⟨set, way, hplace⟩ := (hholds l).mpr ⟨‹_›, hl⟩
      exact ⟨set, way, l, hplace, hs⟩
    · cases hm
  · rintro ⟨set, way, l, hplace, hs⟩
    obtain ⟨hb, hl⟩ := (hholds l).mp ⟨set, way, hplace⟩
    rw [if_pos hb, hl, Option.map_some, hs]

theorem represents (h : c.Sound) : c.Represents c.lineMap :=
  ⟨fun _ _ => lineMap_eq_some_iff h, fun _ _ _ _ hl => ⟨hl.base_eq h, hl.setOf_eq h, hl.full h⟩,
    fun _ _ _ _ _ _ _ hl hl' => ⟨(hl.unique hl' h).1, (hl.unique hl' h).2.1⟩⟩

theorem lineMap_base (h : c.Sound) (addr : Word) :
    c.lineMap (c.base addr) = (c.line (c.number addr)).map CacheLine.lineState := by
  rw [lineMap, if_pos (base_base h addr), number_base h]

theorem Becomes.lineMap_apply (h : c.Becomes c' f) (b : Word) :
    c'.lineMap b = if c.base b = b then (f (c.number b)).map CacheLine.lineState else none := by
  rw [lineMap, base, number, h.lineBytes, h.line, ← base, ← number]

theorem Becomes.lineMap_put {x : Option CacheLine} (h : c.Sound)
    (hb : c.Becomes c' fun n => if n = c.number addr then x else c.line n) :
    c'.lineMap = c.lineMap.put (c.base addr) (x.map CacheLine.lineState) := by
  funext b
  rw [hb.lineMap_apply]
  by_cases hbase : b = c.base addr
  · rw [hbase, LineMap.put_self, if_pos (base_base h addr), if_pos (number_base h addr)]
  · rw [LineMap.put_of_ne hbase, lineMap]
    by_cases hbb : c.base b = b
    · have hn : c.number b ≠ c.number addr :=
        fun hn => hbase (hbb.symm.trans ((base_eq_iff h).mpr hn))
      rw [if_pos hbb, if_pos hbb, if_neg hn]
    · rw [if_neg hbb, if_neg hbb]

def bases (c : Cache) (set : Nat) : List Word :=
  (c.sets.get set).held.map fun l => c.geometry.lineAddress set l.tag

theorem mem_bases (h : c.Sound) (hset : set < c.geometry.sets) :
    b ∈ c.bases set ↔ ∃ way l, c.Holds set way b l := by
  rw [bases, List.mem_map]
  constructor
  · rintro ⟨l, hl, rfl⟩
    rw [CacheSet.mem_held (h.sets set), (h.sets set).lookup_eq_some_iff] at hl
    obtain ⟨way, hway, -⟩ := hl
    exact ⟨way, l, hset, hway, rfl⟩
  · rintro ⟨way, l, hl⟩
    refine ⟨l, ?_, hl.address⟩
    rw [CacheSet.mem_held (h.sets set), (h.sets set).lookup_eq_some_iff]
    exact ⟨way, hl.slot, rfl⟩

theorem nodup_bases (h : c.Sound) (hset : set < c.geometry.sets) : (c.bases set).Nodup := by
  rw [bases, List.Nodup, List.pairwise_map]
  refine (List.pairwise_map.mp (h.sets set).nodup_tags).imp_of_mem ?_
  intro l l' hl hl' hne heq
  have hplace {k : CacheLine} (hk : k ∈ (c.sets.get set).held) :
      ∃ way, c.Holds set way (c.geometry.lineAddress set k.tag) k := by
    rw [CacheSet.mem_held (h.sets set), (h.sets set).lookup_eq_some_iff] at hk
    obtain ⟨way, hway, -⟩ := hk
    exact ⟨way, holds_slot hset hway⟩
  obtain ⟨way, hl⟩ := hplace hl
  obtain ⟨way', hl'⟩ := hplace hl'
  exact hne ((hl.tagOf_eq h).symm.trans ((congrArg c.geometry.tagOf heq).trans (hl'.tagOf_eq h)))

theorem occupied_bases (h : c.Sound) (hset : set < c.geometry.sets) :
    LineMap.Occupied c.geometry c.lineMap set (c.bases set) := by
  refine ⟨nodup_bases h hset, ?_⟩
  intro b
  rw [mem_bases h hset, Option.ne_none_iff_exists']
  constructor
  · rintro ⟨way, l, hl⟩
    exact ⟨⟨_, (lineMap_eq_some_iff h).mpr ⟨set, way, l, hl, rfl⟩⟩, hl.setOf_eq h⟩
  · rintro ⟨⟨s, hs⟩, rfl⟩
    obtain ⟨set', way, l, hl, -⟩ := (lineMap_eq_some_iff h).mp hs
    rw [hl.setOf_eq h]
    exact ⟨way, l, hl⟩

theorem lineMap_bounded (h : c.Sound) : c.lineMap.Bounded c.geometry := by
  intro set hset
  refine ⟨c.bases set, occupied_bases h hset, ?_⟩
  rw [bases, List.length_map]
  exact (h.sets set).length_held_le

theorem full_of_displaced (h : c.Sound)
    {d : CacheLine} (hd : (c.setAt addr).displaced (c.geometry.tagOf addr) = some d) :
    c.line (c.number addr) = none ∧ c.lineMap.Full c.geometry (c.geometry.setOf addr) := by
  refine ⟨?_, c.bases (c.geometry.setOf addr), occupied_bases h (setOf_lt h addr), ?_⟩
  · rw [← lookup_setAt]
    exact CacheSet.lookup_eq_none_of_wayOf (CacheSet.no_room_of_displaced hd).1
  · rw [bases, List.length_map]
    exact (h.sets _).full_of_displaced hd

theorem filled_serves (h : c.Sound) (he : c.enabled = true) (addr : Word) {data : List Byte}
    (hdata : data.length = c.lineBytes) (dirty : Bool) :
    c.lineMap.Serves c.geometry (.fill addr data dirty) (.victim (c.displaced addr))
      (c.filled addr data dirty).lineMap := by
  have hb := filled_becomes h he addr hdata dirty
  cases hv : c.displaced addr with
  | none =>
    simp only [hv, Option.any_none, Bool.false_eq_true, if_false] at hb
    rw [hb.lineMap_put h]
    by_cases hm : c.lineMap (c.base addr) = none
    · exact .install rfl hm
    · exact .replace rfl hm
  | some v =>
    obtain ⟨n, d, hne, hmod, hd, -, hline, rfl⟩ := displaced_spec h hv
    obtain ⟨habsent, hfull⟩ := full_of_displaced h hd
    obtain ⟨hbase, hnumber⟩ := base_of_number h (h.inside n d hline)
    have hother : BitVec.ofNat 64 (n * c.lineBytes) ≠ c.base addr := by
      intro heq
      exact hne (by rw [← hnumber, heq, number_base h])
    have hmap : (c.filled addr data dirty).lineMap =
        (c.lineMap.put (BitVec.ofNat 64 (n * c.lineBytes)) none).put (c.base addr)
          (some ⟨data, dirty, false⟩) := by
      funext b
      rw [hb.lineMap_apply, hv, Option.any_some, h.number_victim hline]
      by_cases hbb : c.base b = b
      · rw [if_pos hbb]
        by_cases hba : b = c.base addr
        · rw [hba, LineMap.put_self, if_pos (number_base h addr)]
          rfl
        · have hna : c.number b ≠ c.number addr :=
            fun hn => hba (hbb.symm.trans ((base_eq_iff h).mpr hn))
          rw [if_neg hna, LineMap.put_of_ne hba]
          by_cases hbv : b = BitVec.ofNat 64 (n * c.lineBytes)
          · rw [hbv, LineMap.put_self, hnumber, beq_self_eq_true, if_pos rfl, Option.map_none]
          · have hnv : ¬(n == c.number b) = true := by
              intro hn
              rw [beq_iff_eq, ← hnumber] at hn
              exact hbv (hbb.symm.trans ((base_eq_iff h).mpr hn.symm |>.trans hbase))
            rw [LineMap.put_of_ne hbv, if_neg hnv, lineMap, if_pos hbb]
      · have hba : b ≠ c.base addr := by
          rintro rfl
          exact hbb (base_base h addr)
        have hbv : b ≠ BitVec.ofNat 64 (n * c.lineBytes) := by
          rintro rfl
          exact hbb hbase
        rw [if_neg hbb, LineMap.put_of_ne hba, LineMap.put_of_ne hbv, lineMap, if_neg hbb]
    rw [hmap]
    refine .displace (s := d.lineState) rfl ?_ ?_ ?_ hfull
    · rw [lineMap_base h, habsent, Option.map_none]
    · rw [lineMap, if_pos hbase, hnumber, hline, Option.map_some]
    · rw [CacheGeometry.setOf_eq, CacheGeometry.setOf_eq]
      exact (congrArg (· % c.geometry.sets) hnumber).trans hmod

theorem dirtyVictims_once (h : c.Sound) : (c.dirtyVictims.map Victim.addr).Nodup := by
  have hbases : c.victims.map Victim.addr = (List.range c.geometry.sets).flatMap c.bases := by
    rw [victims, List.map_flatMap]
    simp only [List.map_map]
    rfl
  have hall : (c.victims.map Victim.addr).Nodup := by
    rw [hbases, List.nodup_flatMap]
    refine ⟨fun set hset => nodup_bases h (List.mem_range.mp hset), ?_⟩
    refine List.nodup_range.imp_of_mem ?_
    intro set set' hset hset' hne b hb hb'
    obtain ⟨way, l, hl⟩ := (mem_bases h (List.mem_range.mp hset)).mp hb
    obtain ⟨way', l', hl'⟩ := (mem_bases h (List.mem_range.mp hset')).mp hb'
    exact hne (hl.unique hl' h).1
  rw [dirtyVictims_eq]
  exact hall.sublist (List.filter_sublist.map _)

theorem mem_dirtyVictims (h : c.Sound) {v : Victim} :
    v ∈ c.dirtyVictims ↔ ∃ b s, c.lineMap b = some s ∧ s.dirty = true ∧ v = s.victim b := by
  rw [dirtyVictims_eq, List.mem_filter, mem_victims h]
  constructor
  · rintro ⟨⟨n, l, hl, rfl⟩, hd⟩
    obtain ⟨hbase, hnumber⟩ := base_of_number h (h.inside n l hl)
    refine ⟨_, l.lineState, ?_, hd, rfl⟩
    rw [lineMap, if_pos hbase, hnumber, hl, Option.map_some]
  · rintro ⟨b, s, hs, hd, rfl⟩
    obtain ⟨set, way, l, hplace, rfl⟩ := (lineMap_eq_some_iff h).mp hs
    refine ⟨⟨c.number b, l, hplace.line h, ?_⟩, hd⟩
    rw [CacheLine.victim, ← toNat_base h, hplace.base_eq h, BitVec.ofNat_toNat, BitVec.setWidth_eq]
    rfl

theorem lineMap_of_miss (h : c.Sound) (miss : c.find addr = none) :
    c.lineMap (c.base addr) = none := by
  rw [lineMap_base h, find_eq_none h miss, Option.map_none]

theorem lineMap_of_hit (h : c.Sound) (hit : c.find addr = some (way, l)) :
    c.lineMap (c.base addr) = some l.lineState := by
  rw [lineMap_base h, (found hit).line, Option.map_some]

theorem victimOf_of_hit (h : c.Sound) (hit : c.find addr = some (way, l)) :
    c.victimOf addr l = l.lineState.victim (c.base addr) := by
  rw [(found hit).victimOf_eq, CacheLine.victim, ← toNat_base h, BitVec.ofNat_toNat,
    BitVec.setWidth_eq]
  rfl

theorem lookup_eq_lineMap (h : c.Sound) (addr : Word) :
    (c.lineMap (c.base addr)).map (fun s => s.withTag (c.geometry.tagOf addr)) = c.lookup addr := by
  rw [lookup]
  cases hf : c.find addr with
  | none => rw [lineMap_of_miss h hf, Option.map_none, Option.map_none]
  | some p =>
    rw [lineMap_of_hit h hf, Option.map_some, Option.map_some, ← (found hf).tag]
    rfl

theorem Becomes.lineMap_same (hb : c.Becomes c' c.line) : c'.lineMap = c.lineMap := by
  funext b
  rw [hb.lineMap_apply, lineMap]

theorem Does.serves (hd : c.Does r a c') (h : c.Sound) (he : c.enabled = true) :
    c.lineMap.Serves c.geometry r a c'.lineMap := by
  have hb := hd.becomes h he
  cases hd with
  | @fill addr data dirty whole => exact filled_serves h he addr whole dirty
  | @readMiss addr length miss =>
    have hs : LineMap.Serves c.geometry c.lineMap (.read addr length) _ _ :=
      .read (b := c.base addr) rfl
    rwa [lineMap_of_miss h miss] at hs
  | @readHit addr length way l hit within =>
    have hs : LineMap.Serves c.geometry c.lineMap (.read addr length) _ _ :=
      .read (b := c.base addr) rfl
    rw [lineMap_of_hit h hit] at hs
    rw [hb.lineMap_same]
    exact hs
  | @writeMiss addr data miss =>
    have hs : LineMap.Serves c.geometry c.lineMap (.write addr data) _ _ :=
      .write (b := c.base addr) rfl
    rw [lineMap_of_miss h miss, Option.map_none,
      LineMap.put_eq_self (lineMap_of_miss h miss)] at hs
    exact hs
  | @writeHit addr data way l hit within =>
    have hs : LineMap.Serves c.geometry c.lineMap (.write addr data) _ _ :=
      .write (b := c.base addr) rfl
    rw [lineMap_of_hit h hit] at hs
    rw [hb.lineMap_put h, (found hit).line]
    exact hs
  | @contains addr =>
    have hs := LineMap.Serves.contains (m := c.lineMap) (b := c.base addr) rfl
    rw [lineMap_base h, Option.isSome_map, ← contains_eq_isSome h] at hs
    exact hs
  | @lookup addr =>
    have hs := LineMap.Serves.lookup (m := c.lineMap) (b := c.base addr) rfl
    rwa [lookup_eq_lineMap h] at hs
  | @invalidateMiss addr miss =>
    have hs := LineMap.Serves.invalidate (m := c.lineMap) (b := c.base addr) rfl
    rw [lineMap_of_miss h miss, LineMap.put_eq_self (lineMap_of_miss h miss)] at hs
    exact hs
  | @invalidateHit addr way l hit =>
    have hs := LineMap.Serves.invalidate (m := c.lineMap) (b := c.base addr) rfl
    rw [lineMap_of_hit h hit, Option.map_some, ← victimOf_of_hit h hit] at hs
    rw [hb.lineMap_put h]
    exact hs
  | @shareMiss addr miss =>
    have hs := LineMap.Serves.share (m := c.lineMap) (b := c.base addr) rfl
    rw [lineMap_of_miss h miss, Option.map_none,
      LineMap.put_eq_self (lineMap_of_miss h miss)] at hs
    exact hs
  | @shareHit addr way l hit =>
    have hs := LineMap.Serves.share (m := c.lineMap) (b := c.base addr) rfl
    have hvictim : (if l.dirty then some (c.victimOf addr l) else none) =
        ((some l.lineState).filter fun s => s.dirty).map fun s => s.victim (c.base addr) := by
      rw [victimOf_of_hit h hit, Option.filter_some]
      change _ = Option.map _ (if l.dirty then some l.lineState else none)
      split <;> rfl
    rw [lineMap_of_hit h hit, ← hvictim] at hs
    rw [hb.lineMap_put h, (found hit).line]
    exact hs
  | flush =>
    have hnone : c.cleared.lineMap = fun _ => none := by
      funext b
      rw [hb.lineMap_apply]
      exact ite_self none
    rw [hnone]
    exact .flush (dirtyVictims_once h) fun v => mem_dirtyVictims h

structure Refines (c : Cache) (m : LineMap) (r : Request) (a : Answer) (c' : Cache) (m' : LineMap) :
    Prop where
  serves : m.Serves c.geometry r a m'
  represents : c'.Represents m'
  bounded : m'.Bounded c.geometry
  handsOver : ∀ b s, m b = some s → s.dirty = true → m' b = none → s.victim b ∈ a.handedOver
  elsewhere : ∀ addr, r.addr? = some addr → ∀ set, set ≠ c.geometry.setOf addr →
    c'.sets.get set = c.sets.get set
  inPlace : ∀ set set' way way' b l l', c.Holds set way b l → c'.Holds set' way' b l' →
    set = set' ∧ way = way'

theorem Does.refines (hd : c.Does r a c') (h : c.Sound) (he : c.enabled = true) :
    c.Refines c.lineMap r a c' c'.lineMap := by
  have hb := hd.becomes h he
  have hs := hd.serves h he
  refine ⟨hs, represents hb.sound, ?_, ?_, ?_, ?_⟩
  · rw [← hb.geometry]
    exact lineMap_bounded hb.sound
  · intro b s hm hdirty hnone
    exact hs.hands_over hm hdirty hnone
  · intro addr hr set hset
    exact hd.elsewhere hr hset
  · intro set set' way way' b l l' hl hl'
    exact hd.in_place h he hl hl'

theorem Served.run {past : List (Request × Answer)} (hr : Served start past c) (h : start.Sound)
    (he : start.enabled = true) (hempty : start.lineMap = fun _ => none) :
    LineMap.Run c.geometry past c.lineMap := by
  induction hr with
  | nil =>
    rw [hempty]
    exact .nil
  | snoc hpast hs ih =>
    obtain ⟨hc, hce, -⟩ := hpast.sound h he
    have hd := does_of_serve hc hce hs
    rw [(hd.becomes hc hce).geometry]
    exact .snoc ih (hd.serves hc hce)

theorem lineMap_ofConfig {name : String} {cfg : CacheConfig} (hc : ofConfig name cfg = .ok c) :
    c.lineMap = fun _ => none := by
  obtain ⟨-, -, -, hnone⟩ := ofConfig_spec hc
  funext b
  rw [lineMap, hnone, Option.map_none]
  exact ite_self none

theorem refines_line_map {name : String} {cfg : CacheConfig} {start c : Cache}
    {past : List (Request × Answer)} (hstart : ofConfig name cfg = .ok start)
    (he : cfg.enabled = true) (hrun : Served start past c) :
    c.geometry = .ofConfig cfg ∧ ∃ m, LineMap.Run (.ofConfig cfg) past m ∧ c.Represents m ∧
      m.Bounded (.ofConfig cfg) ∧ ∀ r, (serve r c).Ends (fun a c' => ∃ m', c.Refines m r a c' m')
        (fun _ _ => False) (¬r.Fits cfg.lineBytes) := by
  obtain ⟨hs, hline, hen, -⟩ := ofConfig_spec hstart
  have hgeo := geometry_ofConfig hstart
  obtain ⟨hc, hce, hcg⟩ := hrun.sound hs (hen.trans he)
  rw [← hgeo, ← hcg]
  have hbytes : c.lineBytes = cfg.lineBytes :=
    (congrArg CacheGeometry.lineBytes hcg).trans hline
  refine ⟨rfl, c.lineMap, hrun.run hs (hen.trans he) (lineMap_ofConfig hstart), represents hc,
    lineMap_bounded hc, ?_⟩
  intro r
  rw [← hbytes]
  exact (serve_ends hc hce r).mono (fun a c' hd => ⟨c'.lineMap, hd.refines hc hce⟩)
    (fun _ _ hf => hf) id

def displacingRun : List (Request × Answer) :=
  [(.fill 0 (List.replicate 8 1) false, .victim none), (.write 0 [7], .found true),
    (.fill 8 (List.replicate 8 2) false, .victim none),
    (.fill 16 (List.replicate 8 3) false, .victim (some ⟨0, true, 7 :: List.replicate 7 1⟩))]

theorem refines_line_map_displacing :
    ∃ start c, ofConfig "dcache" twoWays = .ok start ∧ twoWays.enabled = true ∧
      Served start displacingRun c ∧
      ∃ m, LineMap.Run (.ofConfig twoWays) displacingRun m ∧ c.Represents m ∧
        ∃ a c' m', serve (.read 16 8) c = .done a c' ∧ c.Refines m (.read 16 8) a c' m' := by
  have hrun (start : Cache) (hstart : ofConfig "dcache" twoWays = .ok start) :
      ∃ c, Served start displacingRun c := by
    cases hstart
    exact ⟨_, .snoc (.snoc (.snoc (.snoc .nil (by rfl)) (by rfl)) (by rfl)) (by rfl)⟩
  have hstart : ofConfig "dcache" twoWays = .ok _ := rfl
  obtain ⟨c, hrun⟩ := hrun _ hstart
  have henabled : twoWays.enabled = true := rfl
  obtain ⟨-, m, hm, hrep, -, hnext⟩ := refines_line_map hstart henabled hrun
  obtain ⟨a, c', hserve, m', href⟩ :=
    ((hnext (.read 16 8)).sure (fun _ _ hf => hf) (not_not_intro (by decide))).exists_done
  exact ⟨_, _, rfl, rfl, hrun, m, hm, hrep, a, c', m', hserve, href⟩

end Cache

end EV6
