import EV6.Proofs.Cache.Intact
import EV6.Proofs.Cache.Places
import EV6.Proofs.Cache.Refusal

namespace EV6

open Step Outcome

namespace Cache

variable {c c' : Cache} {ε : Type}

def Shrinks (c c' : Cache) : Prop := ∃ f, c.Becomes c' f ∧ ∀ n, c.line n = none → f n = none

def Cleans (c c' : Cache) : Prop := ∃ f, c.Becomes c' f ∧ ∀ n l, f n = some l → l.dirty = false

theorem shrinks_invalidate (h : c.Sound) (addr : Word) : c.Shrinks (c.invalidate addr).2 := by
  refine ⟨_, invalidate_snd h addr, ?_⟩
  intro n hn
  rw [hn, ite_self]

theorem shrinks_share (h : c.Sound) (addr : Word) : c.Shrinks (c.share addr).2 := by
  refine ⟨_, share_snd h addr, ?_⟩
  intro n hn
  split
  · subst n
    rw [hn, Option.map_none]
  · exact hn

theorem shrinks_cleared (h : c.Sound) : c.Shrinks c.cleared :=
  ⟨_, cleared_becomes h, fun _ _ => rfl⟩

theorem shrinks_read (h : c.Sound) (addr : Word) (length : Nat) :
    (Cache.read addr length c : Outcome Cache ε _).Ends (fun _ c' => c.Shrinks c')
      (fun _ _ => False) True :=
  (read_ends h addr length).mono (fun _ _ hq => ⟨_, hq.2.1, fun _ hn => hn⟩) (fun _ _ hf => hf)
    fun _ => trivial

theorem shrinks_write (h : c.Sound) (addr : Word) (data : List Byte) :
    (Cache.write addr data c : Outcome Cache ε _).Ends (fun _ c' => c.Shrinks c')
      (fun _ _ => False) True := by
  refine (write_ends h addr data).mono ?_ (fun _ _ hf => hf) fun _ => trivial
  rintro _ c' ⟨-, hb, -⟩
  refine ⟨_, hb, ?_⟩
  intro n hn
  split
  · subst n
    rw [hn, Option.map_none]
  · exact hn

theorem cleans_read (h : c.Sound) (hc : ∀ n l, c.line n = some l → l.dirty = false) (addr : Word)
    (length : Nat) :
    (Cache.read addr length c : Outcome Cache ε _).Ends (fun _ c' => c.Cleans c')
      (fun _ _ => False) True :=
  (read_ends h addr length).mono (fun _ _ hq => ⟨_, hq.2.1, hc⟩) (fun _ _ hf => hf) fun _ => trivial

theorem cleans_fill (h : c.Sound) (hc : ∀ n l, c.line n = some l → l.dirty = false) (addr : Word)
    (data : List Byte) :
    (Cache.fill addr data false c : Outcome Cache ε _).Ends (fun _ c' => c.Cleans c')
      (fun _ _ => False) True := by
  by_cases he : c.enabled = true
  · by_cases hd : data.length = c.lineBytes
    · rw [fill_apply he hd]
      refine ⟨_, filled_becomes h he addr hd false, ?_⟩
      intro n l hl
      split at hl
      · obtain rfl := Option.some.inj hl
        rfl
      · split at hl
        · cases hl
        · exact hc n l hl
    · rw [fill_partial he hd]
      trivial
  · rw [fill_disabled he]
    exact ⟨_, h.becomes, hc⟩

theorem cleans_invalidate (h : c.Sound) (hc : ∀ n l, c.line n = some l → l.dirty = false)
    (addr : Word) : c.Cleans (c.invalidate addr).2 := by
  refine ⟨_, invalidate_snd h addr, ?_⟩
  intro n l hl
  split at hl
  · cases hl
  · exact hc n l hl

theorem cleans_cleared (h : c.Sound) : c.Cleans c.cleared :=
  ⟨_, cleared_becomes h, fun _ _ hl => by cases hl⟩

end Cache

namespace MemoryHierarchy

variable {π : Type} {h h' : MemoryHierarchy π} {α : Type}

structure Tidy (h : MemoryHierarchy π) : Prop where
  sound : h.Sound fun _ => True
  clean : ∀ n l, h.icache.line n = some l → l.dirty = false

namespace Tidy

theorem withPort (ht : h.Tidy) (p : π) : (h.withPort p).Tidy :=
  ⟨ht.sound.withPort trivial, ht.clean⟩

theorem icache (ht : h.Tidy) {c : Cache} (hc : h.icache.Cleans c) : (h.withIcache c).Tidy := by
  obtain ⟨f, hb, hf⟩ := hc
  refine ⟨ht.sound.withIcache hb, ?_⟩
  intro n l hl
  exact hf n l ((hb.line n).symm.trans hl)

theorem dcache (ht : h.Tidy) {c : Cache} (hc : h.dcache.Shrinks c) :
    ({ h with dcache := c } : MemoryHierarchy π).Tidy := by
  obtain ⟨f, hb, hf⟩ := hc
  have hs := ht.sound
  have hbecomes : h.Becomes { h with dcache := c } f h.bcache.line :=
    ⟨⟨_, hs.icache.becomes⟩, hb, hs.bcache.becomes⟩
  refine ⟨hbecomes.sound hs ?_ hs.uncached trivial, ht.clean⟩
  intro n
  exact (hs.exclusive n).imp_left (hf n)

theorem bcache (ht : h.Tidy) {c : Cache} (hc : h.bcache.Shrinks c) :
    ({ h with bcache := c } : MemoryHierarchy π).Tidy := by
  obtain ⟨f, hb, hf⟩ := hc
  have hs := ht.sound
  have hbecomes : h.Becomes { h with bcache := c } h.dcache.line f :=
    ⟨⟨_, hs.icache.becomes⟩, hs.dcache.becomes, hb⟩
  refine ⟨hbecomes.sound hs ?_ (fun hu n => hf n (hs.uncached hu n)) trivial, ht.clean⟩
  intro n
  exact (hs.exclusive n).imp_right (hf n)

end Tidy

abbrev KeepsTidy (x : MemoryStep π α) : Prop := Upholds Tidy True (fun _ => True) x

theorem tidy_icache {x : Step Cache BusError α}
    (hx : ∀ c : Cache, c.Sound → (∀ n l, c.line n = some l → l.dirty = false) →
      (x c).Ends (fun _ c' => c.Cleans c') (fun _ c' => c.Cleans c') True) :
    KeepsTidy (onCache .icache x : MemoryStep π α) := by
  intro h ht
  refine (onCache_ends .icache (hx h.icache ht.sound.icache ht.clean)).mono ?_ ?_ id
  · rintro _ _ ⟨c, hc, rfl⟩
    exact ⟨ht.icache hc, trivial⟩
  · rintro _ _ ⟨c, hc, rfl⟩
    exact ht.icache hc

theorem tidy_onCache (name : CacheName) (hname : name ≠ .icache) {x : Step Cache BusError α}
    (hx : ∀ c : Cache, c.Sound → (x c).Ends (fun _ c' => c.Shrinks c') (fun _ _ => False) True) :
    KeepsTidy (onCache name x : MemoryStep π α) := by
  intro h ht
  refine (onCache_ends name (hx (h.cache name) (ht.sound.cache name))).mono ?_
    (fun _ _ ⟨_, hf, _⟩ => hf.elim) id
  rintro _ _ ⟨c, hc, rfl⟩
  refine ⟨?_, trivial⟩
  cases name with
  | icache => exact absurd rfl hname
  | dcache => exact ht.dcache hc
  | bcache => exact ht.bcache hc

theorem tidy_onPort (x : Step π BusError α) : KeepsTidy (onPort x : MemoryStep π α) :=
  (upholds_any x).onPart (fun _ _ => trivial) fun p _ ht _ => ht.withPort p

theorem tidy_takeLine (addr : Word) : KeepsTidy (takeLine addr : MemoryStep π _) := by
  refine (tidy_onCache .dcache (by decide) ?_).bind fun _ _ =>
    (tidy_onCache .bcache (by decide) ?_).bind fun _ _ => upholds_pure trivial
  · exact fun _ hc => Cache.shrinks_invalidate hc addr
  · exact fun _ hc => Cache.shrinks_invalidate hc addr

variable [BlockDevice π]

theorem tidy_writeBackDirty (vs : List Victim) :
    KeepsTidy (writeBackDirty vs : MemoryStep π Nat) := by
  induction vs with
  | nil => exact upholds_pure trivial
  | cons v rest ih =>
    rw [writeBackDirty]
    split
    · exact (tidy_onPort _).bind fun _ _ => ih.bind fun _ _ => upholds_pure trivial
    · exact ih

theorem loadLine_leaves (h : MemoryHierarchy π) (base : Word) :
    (loadLine base h).Ends (fun _ h' => ∃ p, h' = (h.behind base).withPort p)
      (fun _ h' => ∃ p, h' = (h.behind base).withPort p) True := by
  have hinv : onCache .bcache (modifyGet (·.invalidate base)) h =
      .done (h.bcache.invalidate base).1 (h.behind base) := rfl
  rw [loadLine, Step.bind_done (Step.get_apply h), Step.bind_done hinv]
  cases (h.bcache.invalidate base).1 with
  | some line => exact ⟨h.port, rfl⟩
  | none =>
    refine ends_bind (P := fun _ h' => ∃ p, h' = (h.behind base).withPort p) ?_ ?_
    · refine (onPort_ends (ends_any _)).mono ?_ ?_ id
      · rintro _ _ ⟨p, -, rfl⟩
        exact ⟨p, rfl⟩
      · rintro _ _ ⟨p, -, rfl⟩
        exact ⟨p, rfl⟩
    · exact fun _ _ hq => hq

theorem tidy_installLine {base : Word} (ht : h.Tidy) (he : h.dcache.enabled = true)
    (hn : h.copy (h.number base) = none) (data : List Byte) (dirty : Bool) :
    (installLine base data dirty h).Ends (fun _ h' => h'.Tidy) (fun _ h' => h'.Tidy) True := by
  by_cases hlen : data.length = h.lineBytes
  · rw [installLine_apply ht.sound he hlen]
    have hplaced : (h.placed base data dirty).Tidy :=
      ⟨(placed_spec ht.sound he hlen hn).sound, ht.clean⟩
    exact (tidy_writeBackDirty _ _ hplaced).mono (fun _ _ hq => hq.1) (fun _ _ hq => hq) id
  · have hfill : onCache .dcache (Cache.fill base data dirty) h =
        .broken (.partialLine h.dcache.name data.length h.dcache.lineBytes) := by
      rw [onCache, onPart, cache, Cache.fill_partial he hlen]
    rw [installLine, Step.bind_apply, hfill]
    trivial

theorem tidy_ensureLine (ht : h.Tidy) (he : h.dcache.enabled = true) (addr : Word) :
    (ensureLine addr h).Ends (fun _ h' => h'.Tidy) (fun _ h' => h'.Tidy) True := by
  have hs := ht.sound
  rw [ensureLine, Step.bind_done (Step.get_apply h), Cache.contains_eq_isSome hs.dcache]
  cases hdl : h.dcache.line (h.dcache.number addr) with
  | some l => exact ht
  | none =>
    obtain ⟨base, hbase⟩ : ∃ base, Address.lineBase addr h.lineBytes = base := ⟨_, rfl⟩
    have hdbase : Address.lineBase addr h.dcache.lineBytes = base := hbase
    have hmiss : h.dcache.line (h.number base) = none := by
      rw [← hbase, number_lineBase hs]
      exact hdl
    have hbehind (p : π) : ((h.behind base).withPort p).Tidy :=
      ⟨(behind_sound hs base).withPort trivial, ht.clean⟩
    simp only [Option.isSome_none, Bool.false_eq_true, if_false, hdbase]
    refine ends_bind ((loadLine_leaves h base).mono (fun _ _ hq => hq) ?_ id) ?_
    · rintro _ _ ⟨p, rfl⟩
      exact hbehind p
    · rintro ⟨moved, data⟩ _ ⟨p, rfl⟩
      have hcopy : ((h.behind base).withPort p).copy (h.number base) = none :=
        (behind_copy hs hmiss _).trans (if_pos rfl)
      refine ends_bind (tidy_installLine (hbehind p) he hcopy data _) ?_
      intro writebacks h' hq
      cases moved with
      | none => exact hq
      | some line => exact hq

theorem tidy_read (addr : Word) (length : Nat) :
    KeepsTidy (MemoryHierarchy.read addr length : MemoryStep π _) := by
  intro h ht
  rw [MemoryHierarchy.read, Step.bind_done (Step.get_apply h)]
  by_cases he : h.dcache.enabled = true
  · simp only [if_pos he]
    refine ends_bind (tidy_ensureLine ht he addr) fun access h' ht' => ?_
    refine (tidy_onCache .dcache (by decide) ?_).bind (fun _ _ => upholds_pure trivial) h' ht'
    exact fun _ hc => Cache.shrinks_read hc addr length
  · simp only [if_neg he]
    have hread : KeepsTidy (readUncached addr length : MemoryStep π _) :=
      (tidy_onPort _).bind fun _ _ => upholds_unless _ (upholds_pure trivial)
    exact hread.bind (fun _ _ => upholds_pure trivial) h ht

theorem tidy_write (addr : Word) (data : List Byte) :
    KeepsTidy (MemoryHierarchy.write addr data : MemoryStep π _) := by
  intro h ht
  rw [MemoryHierarchy.write, Step.bind_done (Step.get_apply h)]
  by_cases he : h.dcache.enabled = true
  · simp only [if_pos he]
    refine ends_bind (tidy_ensureLine ht he addr) fun access h' ht' => ?_
    refine (tidy_onCache .dcache (by decide) ?_).bind (fun _ _ => upholds_pure trivial) h' ht'
    exact fun _ hc => Cache.shrinks_write hc addr data
  · simp only [if_neg he]
    exact (tidy_onPort _).bind (fun _ _ => upholds_pure trivial) h ht

theorem tidy_fetchUncached (addr : Word) : KeepsTidy (fetchUncached addr : MemoryStep π _) :=
  (tidy_onPort _).bind fun _ _ => upholds_unless _ (upholds_pure trivial)

theorem tidy_newestLine (base : Word) : KeepsTidy (newestLine base : MemoryStep π _) := by
  refine upholds_get.bind fun h _ => ?_
  split
  · exact upholds_pure trivial
  · exact upholds_pure trivial
  · exact (tidy_onPort _).bind fun _ _ => upholds_pure trivial

theorem tidy_fetch (addr : Word) : KeepsTidy (MemoryHierarchy.fetch addr : MemoryStep π _) := by
  have hread : KeepsTidy (onCache .icache (Cache.read (addr &&& ~~~3) 4) : MemoryStep π _) :=
    tidy_icache fun c hc hclean => (Cache.cleans_read hc hclean _ 4).of_sure
  refine upholds_get.bind fun h _ => ?_
  dsimp only
  split
  · refine hread.bind fun bytes _ => ?_
    cases bytes with
    | some bytes => exact upholds_pure trivial
    | none =>
      refine (tidy_newestLine _).bind fun r _ => ?_
      refine (tidy_icache ?_).bind fun _ _ => hread.bind fun _ _ => upholds_pure trivial
      exact fun c hc hclean => (Cache.cleans_fill hc hclean _ _).of_sure
  · exact (tidy_fetchUncached _).bind fun _ _ => upholds_pure trivial

theorem tidy_flush : KeepsTidy (MemoryHierarchy.flush : MemoryStep π Nat) := by
  refine (tidy_onCache .dcache (by decide) ?_).bind fun _ _ =>
    (tidy_onCache .bcache (by decide) ?_).bind fun _ _ => (tidy_writeBackDirty _).bind fun _ _ =>
    (tidy_icache ?_).bind fun _ _ => upholds_pure trivial
  · exact fun _ hc => Cache.shrinks_cleared hc
  · exact fun _ hc => Cache.shrinks_cleared hc
  · exact fun _ hc _ => Cache.cleans_cleared hc

theorem tidy_evict (addr : Word) : KeepsTidy (MemoryHierarchy.evict addr : MemoryStep π Bool) :=
  (tidy_takeLine addr).bind fun _ _ => (tidy_writeBackDirty _).bind fun _ _ => upholds_pure trivial

theorem tidy_probeInvalidate (addr : Word) :
    KeepsTidy (MemoryHierarchy.probeInvalidate addr : MemoryStep π _) := by
  refine (tidy_icache ?_).bind fun _ _ => (tidy_takeLine addr).bind fun _ _ =>
    (tidy_writeBackDirty _).bind fun _ _ => upholds_pure trivial
  exact fun _ hc hclean => Cache.cleans_invalidate hc hclean addr

theorem tidy_probeShare (addr : Word) :
    KeepsTidy (MemoryHierarchy.probeShare addr : MemoryStep π _) := by
  refine upholds_get.bind fun _ _ => (tidy_onCache .dcache (by decide) ?_).bind fun _ _ =>
    (tidy_onCache .bcache (by decide) ?_).bind fun _ _ => (tidy_writeBackDirty _).bind fun _ _ =>
    upholds_pure trivial
  · exact fun _ hc => Cache.shrinks_share hc addr
  · exact fun _ hc => Cache.shrinks_share hc addr

theorem tidy_call (c : Call) : KeepsTidy (c.run : MemoryStep π _) := by
  cases c with
  | read addr length => exact (tidy_read addr length).bind fun _ _ => upholds_pure trivial
  | write addr data => exact (tidy_write addr data).bind fun _ _ => upholds_pure trivial
  | fetch addr => exact (tidy_fetch addr).bind fun _ _ => upholds_pure trivial
  | flush => exact tidy_flush.bind fun _ _ => upholds_pure trivial
  | evict addr => exact (tidy_evict addr).bind fun _ _ => upholds_pure trivial
  | probeInvalidate addr => exact (tidy_probeInvalidate addr).bind fun _ _ => upholds_pure trivial
  | probeShare addr => exact (tidy_probeShare addr).bind fun _ _ => upholds_pure trivial

omit [BlockDevice π] in
theorem tidy_ofConfig {config : Config} {p : π} (hvalid : config.validate = .ok ())
    (hc : ofConfig config p = .ok h) : h.Tidy := by
  have hport : (fun _ : π => True) p := trivial
  refine ⟨(ofConfig_spec hvalid hc hport).1, ?_⟩
  obtain ⟨icache, hicache, hc⟩ := ConfigFailure.bind_eq_ok hc
  obtain ⟨_, _, hc⟩ := ConfigFailure.bind_eq_ok hc
  obtain ⟨_, _, hc⟩ := ConfigFailure.bind_eq_ok hc
  cases hc
  intro n l hl
  exact absurd (((Cache.ofConfig_spec hicache).2.2.2 n).symm.trans hl) (Option.some_ne_none l).symm

theorem Reachable.tidy {config : Config} (hr : Reachable config h) : h.Tidy := by
  induction hr with
  | start hvalid hc => exact tidy_ofConfig hvalid hc
  | call c _ hrun ih => exact (tidy_call c).of_state ih hrun
  | device p _ ih => exact ih.withPort p

end MemoryHierarchy

/-- Every line is whole, at the one place that its address selects. `flagged` is part of the type of
a way, in which one that is not valid is `none`, and nothing that operations have to keep. -/
structure Cache.WellFormed (c : Cache) : Prop where
  ways : ∀ set, (c.sets.get set).lines.length = c.geometry.ways
  selected : ∀ set way b l, c.Holds set way b l →
    c.geometry.setOf b = set ∧ c.geometry.tagOf b = l.tag
  whole : ∀ set way b l, c.Holds set way b l → l.data.length = c.lineBytes
  once : ∀ b set way l set' way' l', c.Holds set way b l → c.Holds set' way' b l' →
    set = set' ∧ way = way'
  flagged : ∀ set slot, slot ∈ (c.sets.get set).lines →
    slot.any (fun l => l.dirty || l.shared) = true → slot.isSome = true

theorem Cache.Sound.wellFormed {c : Cache} (h : c.Sound) : c.WellFormed where
  ways set := (h.sets set).length
  selected _ _ _ _ hl := ⟨hl.setOf_eq h, hl.tagOf_eq h⟩
  whole _ _ _ _ hl := hl.full h
  once _ _ _ _ _ _ _ hl hl' := ⟨(hl.unique hl' h).1, (hl.unique hl' h).2.1⟩
  flagged _ slot _ hflag := by
    obtain ⟨l, rfl, -⟩ := (Option.any_eq_true _ _).mp hflag
    rfl

namespace MemoryHierarchy

variable {π : Type} {h : MemoryHierarchy π}

structure WellFormed (h : MemoryHierarchy π) : Prop where
  icache : h.icache.WellFormed
  dcache : h.dcache.WellFormed
  bcache : h.bcache.WellFormed
  exclusive : ∀ b set way l set' way' l', h.dcache.Holds set way b l →
    ¬h.bcache.Holds set' way' b l'
  icacheClean : ∀ set way b l, h.icache.Holds set way b l → l.dirty = false

theorem Tidy.wellFormed (ht : h.Tidy) : h.WellFormed where
  icache := ht.sound.icache.wellFormed
  dcache := ht.sound.dcache.wellFormed
  bcache := ht.sound.bcache.wellFormed
  exclusive b set way l set' way' l' hd hb := by
    have hdl : h.dcache.line (h.number b) = some l := hd.line ht.sound.dcache
    have hbl := hb.line ht.sound.bcache
    rw [number_bcache ht.sound] at hbl
    rcases ht.sound.exclusive (h.number b) with hn | hn
    · rw [hdl] at hn
      cases hn
    · rw [hbl] at hn
      cases hn
  icacheClean _ _ _ _ hl := ht.clean _ _ (hl.line ht.sound.icache)

end MemoryHierarchy

end EV6
