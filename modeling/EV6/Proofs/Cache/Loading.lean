import EV6.Proofs.Cache.Traffic

namespace EV6

namespace MemoryHierarchy

open Outcome

variable {π : Type} {h h' : MemoryHierarchy π} {content : π → Memory} {ok : π → Prop}
  {answers : Word → Nat → Prop} {n : Nat} {l : CacheLine} {v : Victim} {addr base : Word}
  {data : List Byte} {dirty : Bool}

def displaced (h : MemoryHierarchy π) (base : Word) : List Victim :=
  match h.dcache.displaced base with
  | none => []
  | some v => if h.bcache.enabled then (h.bcache.displaced v.addr).toList else [v]

def placed (h : MemoryHierarchy π) (base : Word) (data : List Byte) (dirty : Bool) :
    MemoryHierarchy π :=
  { h with
    dcache := h.dcache.filled base data dirty
    bcache :=
      match h.dcache.displaced base with
      | none => h.bcache
      | some v => if h.bcache.enabled then h.bcache.filled v.addr v.data v.dirty else h.bcache }

theorem displaced_line (hs : h.Sound ok) (hv : h.dcache.displaced base = some v) :
    ∃ m d, m ≠ h.number base ∧ h.dcache.line m = some d ∧ v = d.victim h.lineBytes m ∧
      h.bcache.number v.addr = m := by
  obtain ⟨m, d, hm, _, _, _, hd, rfl⟩ := Cache.displaced_spec hs.dcache hv
  refine ⟨m, d, hm, hd, rfl, ?_⟩
  rw [number_bcache hs]
  exact hs.number_victim (Sound.copy_of_dcache hd)

theorem evicted_line (hs : h.Sound ok) {w : Victim} (hw : h.bcache.displaced w.addr = some v) :
    ∃ k e, k ≠ h.bcache.number w.addr ∧ h.bcache.line k = some e ∧ v = e.victim h.lineBytes k := by
  obtain ⟨k, e, hk, _, _, _, he, rfl⟩ := Cache.displaced_spec hs.bcache hw
  rw [hs.bcacheLine]
  exact ⟨k, e, hk, he, rfl⟩

theorem evicted_elsewhere (hs : h.Sound ok) {w : Victim} (hw : h.bcache.displaced w.addr = some v) :
    v.number h.lineBytes ≠ h.bcache.number w.addr ∧ h.dcache.line (v.number h.lineBytes) = none := by
  obtain ⟨k, e, hk, hek, rfl⟩ := evicted_line hs hw
  rw [hs.number_victim (hs.copy_of_bcache hek)]
  refine ⟨hk, (hs.exclusive k).resolve_right ?_⟩
  rw [hek]
  exact Option.some_ne_none e

theorem onCache_done {α : Type} (name : CacheName) {x : Step Cache BusError α} {a : α} {c : Cache}
    (ho : x (h.cache name) = .done a c) : onCache name x h = .done a (h.withCache name c) :=
  Step.onPart_done ho

theorem onCache_ends {α : Type} (name : CacheName) {x : Step Cache BusError α}
    {P : α → Cache → Prop} {F : BusError → Cache → Prop} {B : Prop}
    (hx : (x (h.cache name)).Ends P F B) :
    (onCache name x h).Ends (fun a h' => ∃ c, P a c ∧ h' = h.withCache name c)
      (fun e h' => ∃ c, F e c ∧ h' = h.withCache name c) B :=
  Step.ends_onPart hx

theorem installLine_apply [BlockDevice π] (hs : h.Sound ok) (he : h.dcache.enabled = true)
    (hlen : data.length = h.lineBytes) :
    installLine base data dirty h = writeBackDirty (h.displaced base) (h.placed base data dirty) := by
  rw [installLine, Step.bind_done (onCache_done .dcache (Cache.fill_apply he hlen base dirty)),
    displaced, placed]
  cases hv : h.dcache.displaced base with
  | none => rfl
  | some v =>
    obtain ⟨m, d, _, hd, rfl, _⟩ := displaced_line hs hv
    simp only [withCache, placeVictim, Step.bind_apply, Step.get_apply]
    by_cases hb : h.bcache.enabled = true
    · have hlen : (d.victim h.lineBytes m).data.length = h.bcache.lineBytes :=
        (hs.dcache.full hd).trans hs.bcacheLine.symm
      simp only [if_pos hb]
      exact Step.bind_done (onCache_done .bcache (Cache.fill_apply hb hlen _ _))
    · simp only [if_neg hb]

structure Placed (ok : π → Prop) (h : MemoryHierarchy π) (base : Word) (data : List Byte) (dirty : Bool)
    (h' : MemoryHierarchy π) : Prop where
  sound : h'.Sound ok
  alike : h.Alike h'
  line : ∃ l, h'.dcache.line (h.number base) = some l
  body : ∀ n, h'.body n =
    if n = h.number base then some (dirty, data)
    else if ∃ v ∈ h.displaced base, v.number h.lineBytes = n then none
    else h.body n
  copies : ∀ v ∈ h.displaced base, ∃ m d, m ≠ h.number base ∧ h.copy m = some d ∧
    v = d.victim h.lineBytes m

def placedLine (h : MemoryHierarchy π) (base : Word) (data : List Byte) (dirty : Bool) : CacheLine :=
  ⟨h.dcache.geometry.tagOf base, dirty, false, data⟩

theorem placed_dcache (hs : h.Sound ok) (he : h.dcache.enabled = true) (base : Word)
    (hlen : data.length = h.lineBytes) (dirty : Bool) :
    h.dcache.Becomes (h.dcache.filled base data dirty) fun n =>
      if n = h.number base then some (h.placedLine base data dirty)
      else if (h.dcache.displaced base).any (·.number h.lineBytes == n) then none
      else h.dcache.line n :=
  Cache.filled_becomes hs.dcache he base hlen dirty

theorem placed_nothing (hs : h.Sound ok) (he : h.dcache.enabled = true)
    (hlen : data.length = h.lineBytes) (hn : h.copy (h.number base) = none)
    (hv : h.dcache.displaced base = none) : Placed ok h base data dirty (h.placed base data dirty) := by
  obtain ⟨hdn, hbn⟩ := Option.or_eq_none_iff.mp hn
  have hb : h.Becomes (h.placed base data dirty)
      (fun n => if n = h.number base then some (h.placedLine base data dirty) else h.dcache.line n)
      h.bcache.line := by
    refine ⟨⟨_, hs.icache.becomes⟩, ?_, ?_⟩
    · have hd := placed_dcache hs he base hlen dirty
      rw [hv] at hd
      exact hd
    · rw [placed, hv]
      exact hs.bcache.becomes
  have hdisp : h.displaced base = [] := by rw [displaced, hv]
  refine ⟨hb.sound hs ?_ (fun hu => ?_) hs.port, hb.alike, ?_, ?_, ?_⟩
  · intro n
    by_cases he : n = h.number base
    · right
      rw [he, hbn]
    · simp only [if_neg he]
      exact hs.exclusive n
  · rw [he] at hu
    cases hu
  · exact ⟨_, (hb.dcache.line _).trans (if_pos rfl)⟩
  · intro n
    rw [body, hb.copy, hdisp]
    by_cases he : n = h.number base
    · rw [if_pos he, if_pos he, Option.some_or]
      rfl
    · rw [if_neg he, if_neg he, if_neg (by simp)]
      rfl
  · rw [hdisp]
    intro v hv
    cases hv

theorem placed_past (hs : h.Sound ok) (he : h.dcache.enabled = true)
    (hlen : data.length = h.lineBytes) (hv : h.dcache.displaced base = some v)
    (hb : ¬h.bcache.enabled = true) :
    Placed ok h base data dirty (h.placed base data dirty) := by
  obtain ⟨m, d, hm, hd, rfl, _⟩ := displaced_line hs hv
  have hnum := hs.number_victim (Sound.copy_of_dcache hd)
  have hbn (n : Nat) : h.bcache.line n = none := hs.bcache.disabled (by simpa using hb) n
  have hbecomes : h.Becomes (h.placed base data dirty)
      (fun n => if n = h.number base then some (h.placedLine base data dirty)
        else if m == n then none else h.dcache.line n) h.bcache.line := by
    refine ⟨⟨_, hs.icache.becomes⟩, ?_, ?_⟩
    · have hdc := placed_dcache hs he base hlen dirty
      rw [hv] at hdc
      simp only [Option.any_some, hnum] at hdc
      exact hdc
    · simp only [placed, hv, if_neg hb]
      exact hs.bcache.becomes
  have hdisp : h.displaced base = [d.victim h.lineBytes m] := by
    simp only [displaced, hv, if_neg hb]
  refine ⟨hbecomes.sound hs (fun n => Or.inr (hbn n)) (fun _ => hbn) hs.port, hbecomes.alike,
    ?_, ?_, ?_⟩
  · exact ⟨_, (hbecomes.dcache.line _).trans (if_pos rfl)⟩
  · intro n
    rw [body, hbecomes.copy, hdisp, hbn, Option.or_none]
    simp only [List.mem_singleton, exists_eq_left, hnum, beq_iff_eq]
    by_cases he : n = h.number base
    · rw [if_pos he, if_pos he]
      rfl
    · rw [if_neg he, if_neg he]
      split
      · rfl
      · rw [body, copy, hbn, Option.or_none]
  · rw [hdisp]
    intro w hw
    obtain rfl := List.mem_singleton.mp hw
    exact ⟨m, d, hm, Sound.copy_of_dcache hd, rfl⟩

theorem placed_behind_becomes (hs : h.Sound ok) (he : h.dcache.enabled = true)
    (hlen : data.length = h.lineBytes) (hv : h.dcache.displaced base = some v)
    (hb : h.bcache.enabled = true) (hfull : v.data.length = h.bcache.lineBytes) :
    h.Becomes (h.placed base data dirty)
      (fun n => if n = h.number base then some (h.placedLine base data dirty)
        else if v.number h.lineBytes == n then none else h.dcache.line n)
      (fun n => if n = h.bcache.number v.addr then
          some ⟨h.bcache.geometry.tagOf v.addr, v.dirty, false, v.data⟩
        else if (h.bcache.displaced v.addr).any (·.number h.lineBytes == n) then none
        else h.bcache.line n) := by
  refine ⟨⟨_, hs.icache.becomes⟩, ?_, ?_⟩
  · have hdc := placed_dcache hs he base hlen dirty
    rw [hv] at hdc
    exact hdc
  · have hbc := Cache.filled_becomes hs.bcache hb v.addr hfull v.dirty
    rw [hs.bcacheLine] at hbc
    simp only [placed, hv, if_pos hb]
    exact hbc

theorem placed_behind (hs : h.Sound ok) (he : h.dcache.enabled = true)
    (hlen : data.length = h.lineBytes) (hn : h.copy (h.number base) = none)
    (hv : h.dcache.displaced base = some v) (hb : h.bcache.enabled = true) :
    Placed ok h base data dirty (h.placed base data dirty) := by
  obtain ⟨hdn, hbn⟩ := Option.or_eq_none_iff.mp hn
  obtain ⟨m, d, hm, hd, rfl, hnumber⟩ := displaced_line hs hv
  have hnum := hs.number_victim (Sound.copy_of_dcache hd)
  have hbm : h.bcache.line m = none := (hs.exclusive m).resolve_left (by rw [hd]; simp)
  have hfull : (d.victim h.lineBytes m).data.length = h.bcache.lineBytes :=
    (hs.dcache.full hd).trans hs.bcacheLine.symm
  have hbecomes : h.Becomes (h.placed base data dirty) _ _ :=
    placed_behind_becomes hs he hlen hv hb hfull
  rw [hnum, hnumber] at hbecomes
  have hdisp : h.displaced base = (h.bcache.displaced (d.victim h.lineBytes m).addr).toList := by
    simp only [displaced, hv, if_pos hb]
  refine ⟨hbecomes.sound hs ?_ (fun hu => ?_) hs.port, hbecomes.alike, ?_, ?_, ?_⟩
  · intro n
    by_cases hnN : n = h.number base
    · right
      rw [if_neg (fun heq => hm (heq.symm.trans hnN)), hnN, hbn, ite_self]
    · by_cases hnm : n = m
      · left
        rw [if_neg hnN, if_pos (beq_iff_eq.mpr hnm.symm)]
      · rw [if_neg hnN, if_neg hnm]
        rcases hs.exclusive n with hdn | hbn
        · exact Or.inl (by rw [hdn, ite_self])
        · exact Or.inr (by rw [hbn, ite_self])
  · rw [he] at hu
    cases hu
  · exact ⟨_, (hbecomes.dcache.line _).trans (if_pos rfl)⟩
  · intro n
    rw [body, hbecomes.copy, hdisp]
    simp only [Option.mem_toList]
    by_cases hnN : n = h.number base
    · rw [if_pos hnN, if_pos hnN, Option.some_or]
      rfl
    · rw [if_neg hnN, if_neg hnN]
      by_cases hnm : n = m
      · have hkept : ¬∃ v, h.bcache.displaced (d.victim h.lineBytes m).addr = some v ∧
            v.number h.lineBytes = n := by
          rintro ⟨w, hw, hwn⟩
          exact (evicted_elsewhere hs hw).1 (by rw [hnumber, hwn, hnm])
        rw [if_pos (beq_iff_eq.mpr hnm.symm), if_pos hnm, if_neg hkept, body, copy, hnm, hd]
        rfl
      · rw [if_neg (by simpa using Ne.symm hnm), if_neg hnm]
        simp only [Option.any_eq_true, beq_iff_eq]
        by_cases hgone : ∃ v, h.bcache.displaced (d.victim h.lineBytes m).addr = some v ∧
            v.number h.lineBytes = n
        · have hdn : h.dcache.line n = none := by
            obtain ⟨w, hw, hwn⟩ := hgone
            rw [← hwn]
            exact (evicted_elsewhere hs hw).2
          rw [if_pos hgone, if_pos hgone, hdn]
          rfl
        · rw [if_neg hgone, if_neg hgone]
          rfl
  · rw [hdisp]
    intro w hw
    obtain ⟨k, e, hk, hek, rfl⟩ := evicted_line hs (Option.mem_toList.mp hw)
    refine ⟨k, e, ?_, hs.copy_of_bcache hek, rfl⟩
    rintro rfl
    rw [hbn] at hek
    cases hek

theorem placed_spec (hs : h.Sound ok) (he : h.dcache.enabled = true)
    (hlen : data.length = h.lineBytes) (hn : h.copy (h.number base) = none) :
    Placed ok h base data dirty (h.placed base data dirty) := by
  cases hv : h.dcache.displaced base with
  | none => exact placed_nothing hs he hlen hn hv
  | some v =>
    by_cases hb : h.bcache.enabled = true
    · exact placed_behind hs he hlen hn hv hb
    · exact placed_past hs he hlen hv hb

def behind (h : MemoryHierarchy π) (base : Word) : MemoryHierarchy π :=
  { h with bcache := (h.bcache.invalidate base).2 }

def loadedBody (content : π → Memory) (h : MemoryHierarchy π) (n : Nat) : Bool × List Byte :=
  (h.body n).getD (false, (content h.port).bytes (n * h.lineBytes) h.lineBytes)

theorem behind_becomes (hs : h.Sound ok) (base : Word) :
    h.Becomes (h.behind base) h.dcache.line
      (fun n => if n = h.number base then none else h.bcache.line n) := by
  refine ⟨⟨_, hs.icache.becomes⟩, hs.dcache.becomes, ?_⟩
  rw [← number_bcache hs]
  exact Cache.invalidate_snd hs.bcache base

theorem behind_sound (hs : h.Sound ok) (base : Word) : (h.behind base).Sound ok := by
  refine (behind_becomes hs base).sound hs ?_ ?_ hs.port
  · intro n
    rcases hs.exclusive n with hd | hb
    · exact Or.inl hd
    · exact Or.inr (by rw [hb, ite_self])
  · intro hu n
    rw [hs.uncached hu, ite_self]

theorem behind_copy (hs : h.Sound ok) (hd : h.dcache.line (h.number base) = none) (n : Nat) :
    (h.behind base).copy n = if n = h.number base then none else h.copy n := by
  rw [(behind_becomes hs base).copy]
  by_cases hn : n = h.number base
  · rw [if_pos hn, if_pos hn, hn, hd, Option.or_none]
  · rw [if_neg hn, if_neg hn]
    rfl

section Loaded

variable [BlockDevice π]

def loadTraffic (h : MemoryHierarchy π) (base : Word) (p : π) : Traffic :=
  ⟨[h.number base], (h.behind base).displaced base,
    accepted ((h.behind base).displaced base) p⟩

structure Loads (content : π → Memory) (ok : π → Prop) (h : MemoryHierarchy π) (base : Word) (p : π)
    (h₂ : MemoryHierarchy π) : Prop where
  absent : h.dcache.line (h.number base) = none
  unchanged : content p = content h.port
  placed : Placed ok ((h.behind base).withPort p) base (loadedBody content h (h.number base)).2
    (loadedBody content h (h.number base)).1 h₂

variable {h₂ : MemoryHierarchy π} {p q : π}

theorem Loads.body (hl : Loads content ok h base p h₂) (hs : h.Sound ok) (n : Nat) :
    h₂.body n =
      if n = h.number base then some (loadedBody content h (h.number base))
      else if ∃ v ∈ (h.loadTraffic base p).leaving, v.number h.lineBytes = n then none
      else h.body n := by
  have hcopy : ((h.behind base).withPort p).copy n = _ := behind_copy hs hl.absent n
  refine (hl.placed.body n).trans ?_
  by_cases hn : n = h.number base
  · exact (if_pos hn).trans (if_pos hn).symm
  · rw [if_neg hn, MemoryHierarchy.body, hcopy, if_neg hn]
    exact if_neg hn

theorem Loads.copies (hl : Loads content ok h base p h₂) (hs : h.Sound ok) :
    ∀ v ∈ (h.loadTraffic base p).leaving, ∃ m d, m ≠ h.number base ∧ h.copy m = some d ∧
      v = d.victim h.lineBytes m := by
  intro v hv
  obtain ⟨m, d, hm, hd, rfl⟩ := hl.placed.copies v hv
  have hm : m ≠ h.number base := hm
  have hd : (h.behind base).copy m = some d := hd
  rw [behind_copy hs hl.absent, if_neg hm] at hd
  exact ⟨m, d, hm, hd, rfl⟩

theorem Loads.moves (hl : Loads content ok h base p h₂) (hs : h.Sound ok) (hok : ok q)
    (hq : content q = saved (h.loadTraffic base p).written (content p)) :
    Moves content ok (h.loadTraffic base p) h (h₂.withPort q) where
  sound := hl.placed.sound.withPort hok
  alike := Alike.trans (behind_becomes hs base).alike
    ⟨hl.placed.alike.lineBytes, hl.placed.alike.dcacheEnabled, hl.placed.alike.bcacheEnabled⟩
  memory := by rw [← hl.unchanged, ← hq]; rfl
  copies v hv := by
    obtain ⟨m, d, _, hd, rfl⟩ := hl.copies hs v (mem_of_mem_accepted hv)
    exact ⟨m, d, hd, rfl⟩
  entering n hn := by
    have hbody := hl.body hs n
    by_cases he : n = h.number base
    · exact Or.inr (List.mem_singleton.mpr he)
    · left
      rw [if_neg he] at hbody
      intro hnone
      rw [body_eq_none_iff.mpr hnone, ite_self] at hbody
      exact hn (body_eq_none_iff.mp hbody)
  gone v hv := by
    obtain ⟨m, d, hm, hd, rfl⟩ := hl.copies hs v hv
    have hnum := hs.number_victim hd
    refine body_eq_none_iff.mp ((hl.body hs _).trans ?_)
    rw [hnum, if_neg hm, if_pos ⟨_, hv, hnum⟩]
  kept n hn := by
    have hline : (h₂.withPort q).lineBytes = h.lineBytes := hl.placed.alike.lineBytes
    have hbody : (h₂.withPort q).body n = _ := hl.body hs n
    rw [blockOver_eq_body, blockOver_eq_body, hbody, hline]
    by_cases he : n = h.number base
    · rw [if_pos he, loadedBody, ← he]
      cases h.body n <;> rfl
    · rw [if_neg he, if_neg (fun ⟨v, hv, hvn⟩ => hn v hv hvn)]

theorem Loads.settles (hl : Loads content ok h base p h₂) (hs : h.Sound ok) (hok : ok q)
    (hq : content q = saved (h.loadTraffic base p).written (content p))
    (hall : (h.loadTraffic base p).written =
      (h.loadTraffic base p).leaving.filter (·.dirty)) :
    Settles content ok (h.loadTraffic base p) h (h₂.withPort q) where
  toMoves := hl.moves hs hok hq
  leavingCopies v hv := by
    obtain ⟨m, d, _, hd, rfl⟩ := hl.copies hs v hv
    exact ⟨m, d, hd, rfl⟩
  dirtyWritten v hv hd := by
    rw [hall]
    exact List.mem_filter.mpr ⟨hv, hd⟩
  clean n l' hl' hd := by
    have hbody := (hl.body hs n).symm.trans (body_of_copy (h := h₂) hl')
    rw [hd] at hbody
    by_cases he : n = h.number base
    · rw [if_pos he, Option.some_inj, loadedBody, ← he] at hbody
      cases hb : h.body n with
      | none =>
        left
        rw [hb, Option.getD_none, Prod.mk.injEq] at hbody
        have hl' : (h₂.withPort q).copy n = some l' := hl'
        rw [blockOver, hl']
        exact hbody.2.symm
      | some b =>
        right
        left
        rw [hb, Option.getD_some] at hbody
        obtain ⟨l, hl, hlb⟩ := Option.map_eq_some_iff.mp hb
        exact ⟨l, hl, congrArg Prod.fst (hlb.trans hbody)⟩
    · right
      left
      rw [if_neg he] at hbody
      split at hbody
      · cases hbody
      · obtain ⟨l, hl, hlb⟩ := Option.map_eq_some_iff.mp hbody
        exact ⟨l, hl, congrArg Prod.fst hlb⟩

end Loaded

end MemoryHierarchy

end EV6
