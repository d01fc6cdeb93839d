import EV6.Proofs.Cache.Newest

namespace EV6

namespace MemoryHierarchy

open Outcome

variable {π : Type} {h h' : MemoryHierarchy π} {content : π → Memory} {ok : π → Prop}
  {answers : Word → Nat → Prop} {n : Nat} {l : CacheLine} {v : Victim} {vs : List Victim}

def withPort (h : MemoryHierarchy π) (p : π) : MemoryHierarchy π := { h with port := p }

def withIcache (h : MemoryHierarchy π) (icache : Cache) : MemoryHierarchy π := { h with icache }

theorem Sound.withPort (hs : h.Sound ok) {p : π} (hp : ok p) : (h.withPort p).Sound ok :=
  ⟨hp, hs.icache, hs.dcache, hs.bcache, hs.icacheLine, hs.bcacheLine, hs.exclusive, hs.uncached⟩

theorem Alike.withPort (ha : h.Alike h') (p : π) : h.Alike (h'.withPort p) :=
  ⟨ha.lineBytes, ha.dcacheEnabled, ha.bcacheEnabled⟩

theorem Alike.withIcache (ha : h.Alike h') (icache : Cache) : h.Alike (h'.withIcache icache) :=
  ⟨ha.lineBytes, ha.dcacheEnabled, ha.bcacheEnabled⟩

theorem Sound.withIcache (hs : h.Sound ok) {icache : Cache} {f : Nat → Option CacheLine}
    (hi : h.icache.Becomes icache f) : (h.withIcache icache).Sound ok :=
  ⟨hs.port, hi.sound, hs.dcache, hs.bcache, hi.lineBytes.trans hs.icacheLine, hs.bcacheLine, hs.exclusive,
    hs.uncached⟩

def Refused (answers : Word → Nat → Prop) (vs : List Victim) : Prop :=
  ∃ v ∈ vs, ¬answers v.addr v.data.length

def Answered (answers : Word → Nat → Prop) (h : MemoryHierarchy π) : Prop :=
  ∀ n l, h.copy n = some l → answers (BitVec.ofNat 64 (n * h.lineBytes)) h.lineBytes

theorem Answered.not_refused (ha : h.Answered answers) (hs : h.Sound ok) {vs : List Victim}
    (hc : h.Copies vs) : ¬Refused answers vs := by
  rintro ⟨v, hv, hans⟩
  obtain ⟨n, l, hl, rfl⟩ := hc v hv
  refine hans ?_
  rw [CacheLine.victim, hs.full hl]
  exact ha n l hl

theorem onPort_done {α : Type} {x : Step π BusError α} {a : α} {p : π}
    (ho : x h.port = .done a p) : onPort x h = .done a (h.withPort p) := by
  rw [onPort, Step.onPart, ho]
  rfl

theorem onPort_failed {α : Type} {x : Step π BusError α} {e : BusError} {p : π}
    (ho : x h.port = .failed e p) : onPort x h = .failed e (h.withPort p) := by
  rw [onPort, Step.onPart, ho]
  rfl

theorem onPort_ends {α : Type} {x : Step π BusError α} {P : α → π → Prop}
    {F : BusError → π → Prop} {B : Prop} (hx : (x h.port).Ends P F B) :
    (onPort x h).Ends (fun a h' => ∃ p, P a p ∧ h' = h.withPort p)
      (fun e h' => ∃ p, F e p ∧ h' = h.withPort p) B :=
  Step.ends_onPart hx

variable [BlockDevice π]

def accepted : List Victim → π → List Victim
  | [], _ => []
  | v :: rest, p =>
    if v.dirty then
      match BlockDevice.writeBlock v.addr v.data p with
      | .done _ p => v :: accepted rest p
      | _ => []
    else accepted rest p

theorem mem_of_mem_accepted {p : π} (hv : v ∈ accepted vs p) : v ∈ vs := by
  induction vs generalizing p with
  | nil => cases hv
  | cons w rest ih =>
    rw [accepted] at hv
    split at hv
    · split at hv
      · rcases List.mem_cons.mp hv with rfl | hv
        · exact List.mem_cons_self
        · exact List.mem_cons_of_mem _ (ih hv)
      · cases hv
    · exact List.mem_cons_of_mem _ (ih hv)

theorem accepted_of_clean (hvs : ∀ v ∈ vs, v.dirty = false) (p : π) : accepted vs p = [] := by
  induction vs with
  | nil => rfl
  | cons v rest ih =>
    rw [accepted, hvs v List.mem_cons_self]
    exact ih fun w hw => hvs w (List.mem_cons_of_mem _ hw)

theorem writeBackDirty_ends (hd : FlatDevice content ok answers) (vs : List Victim)
    {h : MemoryHierarchy π} (hok : ok h.port) :
    (writeBackDirty vs h).Ends
      (fun _ h' => ∃ p, h' = h.withPort p ∧ ok p ∧
        content p = saved (accepted vs h.port) (content h.port) ∧
        accepted vs h.port = vs.filter (·.dirty))
      (fun _ h' => ∃ p, h' = h.withPort p ∧ ok p ∧
        content p = saved (accepted vs h.port) (content h.port) ∧ Refused answers vs) False := by
  induction vs generalizing h with
  | nil => exact ⟨h.port, rfl, hok, rfl, rfl⟩
  | cons v rest ih =>
    simp only [writeBackDirty, accepted]
    by_cases hv : v.dirty = true
    · have hw := hd.write_ends hok v.addr v.data
      simp only [if_pos hv, List.filter_cons_of_pos hv]
      cases ho : BlockDevice.writeBlock v.addr v.data h.port with
      | done u p =>
        rw [ho] at hw
        have hfirst : writeBack v h = .done u (h.withPort p) := onPort_done ho
        rw [Step.bind_done hfirst]
        refine Step.ends_bind (P := fun _ h' => ∃ q, h' = h.withPort q ∧ ok q ∧
          content q = saved (v :: accepted rest p) (content h.port) ∧
          accepted rest p = rest.filter (·.dirty)) ?_ ?_
        · refine (ih (h := h.withPort p) hw.1).mono ?_ ?_ id
          · rintro _ h' ⟨q, rfl, hqok, hq, hall⟩
            refine ⟨q, rfl, hqok, ?_, hall⟩
            rw [hq, saved, saved, List.foldl_cons, ← hw.2]
            rfl
          · rintro _ h' ⟨q, rfl, hqok, hq, w, hwm, hans⟩
            refine ⟨q, rfl, hqok, ?_, w, List.mem_cons_of_mem _ hwm, hans⟩
            rw [hq, saved, saved, List.foldl_cons, ← hw.2]
            rfl
        · rintro k h' ⟨q, rfl, hqok, hq, hall⟩
          exact ⟨q, rfl, hqok, hq, by simp only [hall]⟩
      | failed e p =>
        rw [ho] at hw
        have hfirst : writeBack v h = .failed e (h.withPort p) := onPort_failed ho
        rw [Step.bind_failed hfirst]
        exact ⟨p, rfl, hw.1, hw.2.1, v, List.mem_cons_self, hw.2.2⟩
      | broken b =>
        rw [ho] at hw
        exact hw.elim
    · simp only [if_neg hv, List.filter_cons_of_neg hv]
      refine (ih hok).mono (fun _ _ hq => hq) ?_ id
      rintro _ h' ⟨q, hq, hqok, hc, w, hw, hans⟩
      exact ⟨q, hq, hqok, hc, w, List.mem_cons_of_mem _ hw, hans⟩

theorem writeBackDirty_filter (vs : List Victim) :
    (writeBackDirty (vs.filter (·.dirty)) : MemoryStep π Nat) = writeBackDirty vs := by
  induction vs with
  | nil => rfl
  | cons v rest ih =>
    by_cases hd : v.dirty = true
    · rw [List.filter_cons_of_pos hd, writeBackDirty, writeBackDirty, if_pos hd, if_pos hd, ih]
    · rw [List.filter_cons_of_neg hd, writeBackDirty, if_neg hd, ih]

structure Takes (ok : π → Prop) (vs : List Victim) (h h₁ : MemoryHierarchy π) : Prop where
  sound : h₁.Sound ok
  alike : h.Alike h₁
  port : h₁.port = h.port
  copy : ∀ n, h₁.copy n = if ∃ v ∈ vs, v.number h.lineBytes = n then none else h.copy n
  copies : h.Copies vs

omit [BlockDevice π] in
theorem Takes.withIcache {h₁ : MemoryHierarchy π} (ht : Takes ok vs h h₁) {icache : Cache}
    {f : Nat → Option CacheLine} (hi : h₁.icache.Becomes icache f) :
    Takes ok vs h (h₁.withIcache icache) :=
  ⟨ht.sound.withIcache hi, ht.alike.withIcache icache, ht.port, ht.copy, ht.copies⟩

def takenTraffic (h : MemoryHierarchy π) (vs : List Victim) : Traffic :=
  ⟨[], vs, accepted vs h.port⟩

theorem Takes.moves {h₁ : MemoryHierarchy π} (ht : Takes ok vs h h₁) {p : π} (hok : ok p)
    (hp : content p = saved (accepted vs h.port) (content h.port)) :
    Moves content ok (h.takenTraffic vs) h (h₁.withPort p) where
  sound := ht.sound.withPort hok
  alike := ht.alike.withPort p
  memory := hp
  copies v hv := ht.copies v (mem_of_mem_accepted hv)
  entering n hn := by
    left
    intro hnone
    have hcopy := ht.copy n
    rw [hnone, ite_self] at hcopy
    exact hn hcopy
  gone v hv := by
    refine (ht.copy _).trans ?_
    rw [if_pos ⟨v, hv, rfl⟩]
  kept n hn := by
    have hcopy := ht.copy n
    rw [if_neg (fun ⟨v, hv, he⟩ => hn v hv he)] at hcopy
    have hcopy : (h₁.withPort p).copy n = h.copy n := hcopy
    have hline : (h₁.withPort p).lineBytes = h.lineBytes := ht.alike.lineBytes
    rw [blockOver, blockOver, hcopy, hline]

theorem Takes.settles {h₁ : MemoryHierarchy π} (ht : Takes ok vs h h₁) {p : π} (hok : ok p)
    (hp : content p = saved (accepted vs h.port) (content h.port))
    (hall : accepted vs h.port = vs.filter (·.dirty)) :
    Settles content ok (h.takenTraffic vs) h (h₁.withPort p) where
  toMoves := ht.moves hok hp
  leavingCopies := ht.copies
  dirtyWritten v hv hd := by
    rw [takenTraffic, hall]
    exact List.mem_filter.mpr ⟨hv, hd⟩
  clean n l' hl' hd := by
    right
    left
    have hl' : h₁.copy n = some l' := hl'
    rw [ht.copy] at hl'
    split at hl'
    · cases hl'
    · exact ⟨l', hl', hd⟩

theorem Takes.writeBack_ends {h₁ : MemoryHierarchy π} (ht : Takes ok vs h h₁)
    (hd : FlatDevice content ok answers) (hs : h.Sound ok) :
    (writeBackDirty vs h₁).Ends (fun _ h' => Settles content ok (h.takenTraffic vs) h h')
      (fun _ h' => Moves content ok (h.takenTraffic vs) h h' ∧ ¬h.Answered answers) False := by
  refine (writeBackDirty_ends hd vs ht.sound.port).mono ?_ ?_ id
  · rintro _ h' ⟨p, rfl, hok, hp, hall⟩
    rw [ht.port] at hp hall
    exact ht.settles hok hp hall
  · rintro _ h' ⟨p, rfl, hok, hp, href⟩
    rw [ht.port] at hp
    exact ⟨ht.moves hok hp, fun ha => ha.not_refused hs ht.copies href⟩

omit [BlockDevice π] in
theorem number_bcache (hs : h.Sound ok) (addr : Word) : h.bcache.number addr = h.number addr := by
  rw [Cache.number, hs.bcacheLine, number]

def victimsAt (h : MemoryHierarchy π) (addr : Word) : List Victim :=
  (h.dcache.invalidate addr).1.toList ++ (h.bcache.invalidate addr).1.toList

def without (h : MemoryHierarchy π) (addr : Word) : MemoryHierarchy π :=
  { h with dcache := (h.dcache.invalidate addr).2, bcache := (h.bcache.invalidate addr).2 }

omit [BlockDevice π] in
theorem takeLine_apply (h : MemoryHierarchy π) (addr : Word) :
    takeLine addr h = .done (h.victimsAt addr) (h.without addr) := rfl

omit [BlockDevice π] in
theorem victimsAt_eq (hs : h.Sound ok) (addr : Word) :
    h.victimsAt addr =
      ((h.copy (h.number addr)).map (·.victim h.lineBytes (h.number addr))).toList := by
  rw [victimsAt, Cache.invalidate_fst hs.dcache, Cache.invalidate_fst hs.bcache, number_bcache hs,
    hs.bcacheLine, copy]
  rcases hs.exclusive (h.number addr) with hdn | hbn
  · have hdn' : h.dcache.line (h.dcache.number addr) = none := hdn
    rw [hdn, hdn']
    rfl
  · rw [hbn, Option.or_none, Option.map_none, Option.toList_none, List.append_nil]
    rfl

omit [BlockDevice π] in
theorem victim_mem_victimsAt (hs : h.Sound ok) {addr : Word}
    (hl : h.copy (h.number addr) = some l) :
    l.victim h.lineBytes (h.number addr) ∈ h.victimsAt addr := by
  rw [victimsAt_eq hs, hl]
  exact List.mem_singleton_self _

omit [BlockDevice π] in
theorem without_becomes (hs : h.Sound ok) (addr : Word) :
    h.Becomes (h.without addr) (fun n => if n = h.number addr then none else h.dcache.line n)
      (fun n => if n = h.number addr then none else h.bcache.line n) := by
  refine ⟨⟨_, hs.icache.becomes⟩, Cache.invalidate_snd hs.dcache addr, ?_⟩
  rw [← number_bcache hs]
  exact Cache.invalidate_snd hs.bcache addr

omit [BlockDevice π] in
theorem without_takes (hs : h.Sound ok) (addr : Word) :
    Takes ok (h.victimsAt addr) h (h.without addr) := by
  have hb := without_becomes hs addr
  have hiff (n : Nat) : (∃ v ∈ h.victimsAt addr, v.number h.lineBytes = n) ↔
      n = h.number addr ∧ h.copy n ≠ none := by
    rw [victimsAt_eq hs]
    constructor
    · rintro ⟨v, hv, rfl⟩
      obtain ⟨l, hl, rfl⟩ := Option.map_eq_some_iff.mp (Option.mem_toList.mp hv)
      rw [hs.number_victim hl, hl]
      exact ⟨rfl, Option.some_ne_none l⟩
    · rintro ⟨rfl, hn⟩
      obtain ⟨l, hl⟩ := Option.ne_none_iff_exists'.mp hn
      refine ⟨l.victim h.lineBytes (h.number addr), ?_, hs.number_victim hl⟩
      rw [hl, Option.map_some, Option.toList_some]
      exact List.mem_singleton.mpr rfl
  refine ⟨hb.sound hs ?_ ?_ hs.port, hb.alike, rfl, ?_, ?_⟩
  · intro n
    by_cases hn : n = h.number addr
    · simp only [if_pos hn, true_or]
    · simp only [if_neg hn]
      exact hs.exclusive n
  · intro hu n
    rw [hs.uncached hu n, ite_self]
  · intro n
    rw [hb.copy]
    simp only [hiff]
    by_cases hn : n = h.number addr
    · simp only [if_pos hn, Option.or_none]
      split
      · rfl
      · rename_i hnot
        exact (Classical.not_not.mp fun hne => hnot ⟨hn, hne⟩).symm
    · simp only [hn, false_and, if_false]
      rfl
  · rw [victimsAt_eq hs]
    intro v hv
    obtain ⟨l, hl, rfl⟩ := Option.map_eq_some_iff.mp (Option.mem_toList.mp hv)
    exact ⟨_, l, hl, rfl⟩

theorem evict_ends (hd : FlatDevice content ok answers) (hs : h.Sound ok) (addr : Word) :
    (evict addr h).Ends
      (fun _ h' => Settles content ok (h.takenTraffic (h.victimsAt addr)) h h')
      (fun _ h' => Moves content ok (h.takenTraffic (h.victimsAt addr)) h h' ∧
        ¬h.Answered answers) False := by
  rw [evict, Step.bind_done (takeLine_apply h addr)]
  exact Step.ends_bind ((without_takes hs addr).writeBack_ends hd hs) fun _ _ hq => hq

theorem probeInvalidate_ends (hd : FlatDevice content ok answers) (hs : h.Sound ok) (addr : Word) :
    (probeInvalidate addr h).Ends
      (fun _ h' => Settles content ok (h.takenTraffic (h.victimsAt addr)) h h')
      (fun _ h' => Moves content ok (h.takenTraffic (h.victimsAt addr)) h h' ∧
        ¬h.Answered answers) False := by
  have hfirst : onCache .icache (modifyGet (·.invalidate addr)) h =
      .done (h.icache.invalidate addr).1 (h.withIcache (h.icache.invalidate addr).2) := rfl
  have hthen : takeLine addr (h.withIcache (h.icache.invalidate addr).2) =
      .done (h.victimsAt addr) ((h.without addr).withIcache (h.icache.invalidate addr).2) := rfl
  rw [probeInvalidate, Step.bind_done hfirst, Step.bind_done hthen]
  have htakes := (without_takes hs addr).withIcache (Cache.invalidate_snd hs.icache addr)
  exact Step.ends_bind (htakes.writeBack_ends hd hs) fun _ _ hq => hq

def allVictims (h : MemoryHierarchy π) : List Victim := h.dcache.victims ++ h.bcache.victims

def emptied (h : MemoryHierarchy π) : MemoryHierarchy π :=
  { h with dcache := h.dcache.cleared, bcache := h.bcache.cleared }

omit [BlockDevice π] in
theorem mem_allVictims (hs : h.Sound ok) :
    v ∈ h.allVictims ↔ ∃ n l, h.copy n = some l ∧ v = l.victim h.lineBytes n := by
  rw [allVictims, List.mem_append, Cache.mem_victims hs.dcache, Cache.mem_victims hs.bcache,
    hs.bcacheLine]
  constructor
  · rintro (⟨n, l, hl, rfl⟩ | ⟨n, l, hl, rfl⟩)
    · exact ⟨n, l, Sound.copy_of_dcache hl, rfl⟩
    · exact ⟨n, l, hs.copy_of_bcache hl, rfl⟩
  · rintro ⟨n, l, hl, rfl⟩
    rcases Sound.copy_cases hl with hdl | hbl
    · exact Or.inl ⟨n, l, hdl, rfl⟩
    · exact Or.inr ⟨n, l, hbl, rfl⟩

omit [BlockDevice π] in
theorem emptied_takes (hs : h.Sound ok) : Takes ok h.allVictims h h.emptied := by
  have hb : h.Becomes h.emptied (fun _ => none) (fun _ => none) :=
    ⟨⟨_, hs.icache.becomes⟩, Cache.cleared_becomes hs.dcache, Cache.cleared_becomes hs.bcache⟩
  refine ⟨hb.sound hs (fun _ => Or.inl rfl) (fun _ _ => rfl) hs.port, hb.alike, rfl, ?_, ?_⟩
  · intro n
    rw [hb.copy]
    split
    · rfl
    · rename_i hnot
      cases hl : h.copy n with
      | none => rfl
      | some l => exact absurd ⟨_, (mem_allVictims hs).mpr ⟨n, l, hl, rfl⟩, hs.number_victim hl⟩ hnot
  · intro v hv
    exact (mem_allVictims hs).mp hv

theorem flush_ends (hd : FlatDevice content ok answers) (hs : h.Sound ok) :
    (flush h).Ends
      (fun _ h' => Settles content ok (h.takenTraffic h.allVictims) h h' ∧
        (∀ n, h'.dcache.line n = none) ∧ ∀ n, h'.bcache.line n = none)
      (fun _ h' => Moves content ok (h.takenTraffic h.allVictims) h h' ∧
        ¬h.Answered answers) False := by
  have hfirst : onCache .dcache (modifyGet Cache.flush) h =
      .done h.dcache.dirtyVictims { h with dcache := h.dcache.cleared } := rfl
  have hthen : onCache .bcache (modifyGet Cache.flush) { h with dcache := h.dcache.cleared } =
      .done h.bcache.dirtyVictims h.emptied := rfl
  rw [flush, Step.bind_done hfirst, Step.bind_done hthen, Cache.dirtyVictims_eq,
    Cache.dirtyVictims_eq, ← List.filter_append, writeBackDirty_filter]
  have ht := emptied_takes hs
  refine Step.ends_bind (P := fun _ h' => ∃ p, h' = h.emptied.withPort p ∧ ok p ∧
    content p = saved (accepted h.allVictims h.port) (content h.port) ∧
    accepted h.allVictims h.port = h.allVictims.filter (·.dirty)) ?_ ?_
  · refine (writeBackDirty_ends hd h.allVictims ht.sound.port).mono (fun _ _ hq => hq) ?_ id
    rintro _ h' ⟨p, rfl, hok, hp, href⟩
    exact ⟨ht.moves hok hp, fun ha => ha.not_refused hs ht.copies href⟩
  · rintro _ h' ⟨p, rfl, hok, hp, hall⟩
    refine ⟨(ht.withIcache (Cache.cleared_becomes hs.icache)).settles hok hp hall, ?_, ?_⟩
    · exact (Cache.cleared_becomes hs.dcache).line
    · exact (Cache.cleared_becomes hs.bcache).line

end MemoryHierarchy

end EV6
