import EV6.Proofs.Cache.Traffic

namespace EV6

namespace MemoryHierarchy

open Outcome

variable {π : Type} {h : MemoryHierarchy π} {content : π → Memory} {ok : π → Prop}
  {answers : Word → Nat → Prop} [BlockDevice π]

def sharedVictims (h : MemoryHierarchy π) (addr : Word) : List Victim :=
  (h.dcache.share addr).1.toList ++ (h.bcache.share addr).1.toList

def sharing (h : MemoryHierarchy π) (addr : Word) : MemoryHierarchy π :=
  { h with dcache := (h.dcache.share addr).2, bcache := (h.bcache.share addr).2 }

def sharedTraffic (h : MemoryHierarchy π) (addr : Word) : Traffic :=
  ⟨[], [], accepted (h.sharedVictims addr) h.port⟩

omit [BlockDevice π] in
theorem sharedVictims_eq (hs : h.Sound ok) (addr : Word) :
    h.sharedVictims addr =
      (((h.copy (h.number addr)).filter (·.dirty)).map
        (·.victim h.lineBytes (h.number addr))).toList := by
  rw [sharedVictims, Cache.share_fst hs.dcache, Cache.share_fst hs.bcache, number_bcache hs,
    hs.bcacheLine, copy]
  rcases hs.exclusive (h.number addr) with hdn | hbn
  · have hdn' : h.dcache.line (h.dcache.number addr) = none := hdn
    rw [hdn, hdn']
    rfl
  · rw [hbn, Option.or_none, Option.filter_none, Option.map_none, Option.toList_none,
      List.append_nil]
    rfl

omit [BlockDevice π] in
theorem sharedVictims_copies (hs : h.Sound ok) (addr : Word) :
    h.Copies (h.sharedVictims addr) := by
  intro v hv
  rw [sharedVictims_eq hs] at hv
  obtain ⟨l, hl, rfl⟩ := Option.map_eq_some_iff.mp (Option.mem_toList.mp hv)
  exact ⟨_, l, (Option.filter_eq_some_iff.mp hl).1, rfl⟩

omit [BlockDevice π] in
theorem sharing_becomes (hs : h.Sound ok) (addr : Word) :
    h.Becomes (h.sharing addr)
      (fun n => if n = h.number addr then (h.dcache.line (h.number addr)).map Cache.cleaned
        else h.dcache.line n)
      (fun n => if n = h.number addr then (h.bcache.line (h.number addr)).map Cache.cleaned
        else h.bcache.line n) := by
  refine ⟨⟨_, hs.icache.becomes⟩, Cache.share_snd hs.dcache addr, ?_⟩
  rw [← number_bcache hs]
  exact Cache.share_snd hs.bcache addr

omit [BlockDevice π] in
theorem sharing_copy (hs : h.Sound ok) (addr : Word) (n : Nat) :
    (h.sharing addr).copy n =
      if n = h.number addr then (h.copy (h.number addr)).map Cache.cleaned else h.copy n := by
  rw [(sharing_becomes hs addr).copy]
  by_cases hn : n = h.number addr
  · simp only [if_pos hn, copy]
    rw [Option.map_or]
  · simp only [if_neg hn, copy]

omit [BlockDevice π] in
theorem sharing_sound (hs : h.Sound ok) (addr : Word) : (h.sharing addr).Sound ok := by
  refine (sharing_becomes hs addr).sound hs ?_ ?_ hs.port
  · intro n
    by_cases hn : n = h.number addr
    · simp only [if_pos hn, Option.map_eq_none_iff]
      exact hs.exclusive _
    · simp only [if_neg hn]
      exact hs.exclusive n
  · intro hu n
    rw [hs.uncached hu, hs.uncached hu, Option.map_none, ite_self]

theorem sharing_moves (hs : h.Sound ok) (addr : Word) {p : π} (hok : ok p)
    (hp : content p = saved (accepted (h.sharedVictims addr) h.port) (content h.port)) :
    Moves content ok (h.sharedTraffic addr) h ((h.sharing addr).withPort p) where
  sound := (sharing_sound hs addr).withPort hok
  alike := (sharing_becomes hs addr).alike.withPort p
  memory := hp
  copies v hv := sharedVictims_copies hs addr v (mem_of_mem_accepted hv)
  entering n hn := by
    left
    intro hnone
    refine hn ((sharing_copy hs addr n).trans ?_)
    by_cases he : n = h.number addr
    · rw [if_pos he, ← he, hnone, Option.map_none]
    · rw [if_neg he, hnone]
  gone v hv := by cases hv
  kept n _ := by
    have hcopy : ((h.sharing addr).withPort p).copy n = _ := sharing_copy hs addr n
    have hline : ((h.sharing addr).withPort p).lineBytes = h.lineBytes :=
      (sharing_becomes hs addr).alike.lineBytes
    rw [blockOver, blockOver, hcopy, hline]
    by_cases he : n = h.number addr
    · rw [if_pos he, ← he]
      cases h.copy n <;> rfl
    · rw [if_neg he]

theorem sharing_settles (hs : h.Sound ok) (addr : Word) {p : π} (hok : ok p)
    (hp : content p = saved (accepted (h.sharedVictims addr) h.port) (content h.port))
    (hall : accepted (h.sharedVictims addr) h.port = (h.sharedVictims addr).filter (·.dirty)) :
    Settles content ok (h.sharedTraffic addr) h ((h.sharing addr).withPort p) where
  toMoves := sharing_moves hs addr hok hp
  leavingCopies v hv := by cases hv
  dirtyWritten v hv := by cases hv
  clean n l' hl' hd := by
    right
    have hl' : (h.sharing addr).copy n = some l' := hl'
    rw [sharing_copy hs] at hl'
    by_cases he : n = h.number addr
    · rw [if_pos he] at hl'
      obtain ⟨l, hl, rfl⟩ := Option.map_eq_some_iff.mp hl'
      cases hdirty : l.dirty with
      | false => exact Or.inl ⟨l, he ▸ hl, hdirty⟩
      | true =>
        right
        refine ⟨l.victim h.lineBytes n, ?_, ?_⟩
        · rw [sharedTraffic, hall, sharedVictims_eq hs, hl, Option.filter_some, if_pos hdirty, ← he]
          exact List.mem_filter.mpr ⟨List.mem_singleton.mpr rfl, hdirty⟩
        · exact hs.number_victim (he ▸ hl)
    · rw [if_neg he] at hl'
      exact Or.inl ⟨l', hl', hd⟩

theorem probeShare_ends (hd : FlatDevice content ok answers) (hs : h.Sound ok) (addr : Word) :
    (probeShare addr h).Ends
      (fun _ h' => Settles content ok (h.sharedTraffic addr) h h' ∧
        (h.sharedTraffic addr).written = (h.sharedVictims addr).filter (·.dirty))
      (fun _ h' => Moves content ok (h.sharedTraffic addr) h h' ∧ ¬h.Answered answers) False := by
  have hget : (get : MemoryStep π (MemoryHierarchy π)) h = .done h h := rfl
  have hfirst : onCache .dcache (modifyGet (·.share addr)) h =
      .done (h.dcache.share addr).1 { h with dcache := (h.dcache.share addr).2 } := rfl
  have hthen : onCache .bcache (modifyGet (·.share addr)) { h with dcache := (h.dcache.share addr).2 } =
      .done (h.bcache.share addr).1 (h.sharing addr) := rfl
  rw [probeShare, Step.bind_done hget, Step.bind_done hfirst, Step.bind_done hthen]
  refine Step.ends_bind (P := fun _ h' => Settles content ok (h.sharedTraffic addr) h h' ∧
    (h.sharedTraffic addr).written = (h.sharedVictims addr).filter (·.dirty)) ?_ fun _ _ hq => hq
  refine (writeBackDirty_ends hd (h.sharedVictims addr) (h := h.sharing addr) hs.port).mono ?_ ?_ id
  · rintro _ h' ⟨p, rfl, hok, hp, hall⟩
    exact ⟨sharing_settles hs addr hok hp hall, hall⟩
  · rintro _ h' ⟨p, rfl, hok, hp, href⟩
    exact ⟨sharing_moves hs addr hok hp, fun ha => ha.not_refused hs (sharedVictims_copies hs addr) href⟩

end MemoryHierarchy

end EV6
