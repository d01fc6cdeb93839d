import EV6.Proofs.Cache.Calls

namespace EV6

namespace MemoryHierarchy

open Outcome

variable {π : Type} {h h' : MemoryHierarchy π} {content : π → Memory} {ok : π → Prop}
  {answers : Word → Nat → Prop} {c : Call} {m : Memory} {n : Nat}

theorem ofConfig_uniform {config : Config} {lineBytes : Nat} {p : π} (hu : config.Uniform lineBytes)
    (hc : ofConfig config p = .ok h) (hp : ok p) :
    h.Sound ok ∧ h.lineBytes = lineBytes ∧ h.port = p ∧ ∀ n, h.copy n = none := by
  obtain ⟨_, hic, hc⟩ := ConfigFailure.bind_eq_ok hc
  obtain ⟨_, hdc, hc⟩ := ConfigFailure.bind_eq_ok hc
  obtain ⟨_, hbc, hc⟩ := ConfigFailure.bind_eq_ok hc
  cases hc
  obtain ⟨his, hiline, _, _⟩ := Cache.ofConfig_spec hic
  obtain ⟨hds, hdline, _, hdn⟩ := Cache.ofConfig_spec hdc
  obtain ⟨hbs, hbline, _, hbn⟩ := Cache.ofConfig_spec hbc
  have hline := hdline.trans hu.dcache
  refine ⟨⟨hp, his, hds, hbs, ?_, ?_, fun n => Or.inl (hdn n), fun _ => hbn⟩, hline, rfl, ?_⟩
  · exact (hiline.trans hu.icache).trans hline.symm
  · exact (hbline.trans hu.bcache).trans hline.symm
  · intro n
    simp only [copy, hdn, hbn, Option.or_none]

theorem ofConfig_spec {config : Config} {p : π} (hvalid : config.validate = .ok ())
    (hc : ofConfig config p = .ok h) (hp : ok p) :
    h.Sound ok ∧ h.lineBytes = config.cache.dcache.lineBytes ∧ h.port = p ∧
      ∀ n, h.copy n = none :=
  ofConfig_uniform (Config.valid_of_validate hvalid).uniform hc hp

structure Shows (content : π → Memory) (ok : π → Prop) (m : Memory) (h : MemoryHierarchy π) :
    Prop where
  sound : h.Sound ok
  coherent : Coherent content h
  newestEq : newest content h = m

theorem shows_of_empty (hs : h.Sound ok) (hn : ∀ n, h.copy n = none) :
    Shows content ok (content h.port) h := by
  refine ⟨hs, ?_, ?_⟩
  · intro n l hl
    rw [hn] at hl
    cases hl
  · funext a
    exact newestOver_of_none (hn _) _

structure Refines (content : π → Memory) (ok : π → Prop) (answers : Word → Nat → Prop) (m : Memory)
    (h : MemoryHierarchy π) : Prop extends Shows content ok m h where
  answered : h.Answered answers

theorem refines_of_empty (hs : h.Sound ok) (hn : ∀ n, h.copy n = none) :
    Refines content ok answers (content h.port) h := by
  refine ⟨shows_of_empty hs hn, ?_⟩
  intro n l hl
  rw [hn] at hl
  cases hl

variable [BlockDevice π]

theorem accessTraffic_entering (hs : h.Sound ok) (addr : Word) :
    ∀ n ∈ (h.accessTraffic addr).entering,
      BitVec.ofNat 64 (n * h.lineBytes) = Address.lineBase addr h.lineBytes := by
  have hload (p : π) : ∀ n ∈ (h.loadTraffic (Address.lineBase addr h.lineBytes) p).entering,
      BitVec.ofNat 64 (n * h.lineBytes) = Address.lineBase addr h.lineBytes := by
    intro n hn
    rw [List.mem_singleton.mp hn, number_lineBase hs, ofNat_number hs]
  intro n hn
  rw [accessTraffic] at hn
  split at hn
  · simp only [lineTraffic] at hn
    split at hn
    · cases hn
    · split at hn
      · exact hload _ n hn
      · split at hn
        · exact hload _ n hn
        · cases hn
  · cases hn

theorem entering_answered (hs : h.Sound ok) (hr : c.Reaches answers h.lineBytes) :
    ∀ n ∈ (c.traffic h).entering, answers (BitVec.ofNat 64 (n * h.lineBytes)) h.lineBytes := by
  intro n hn
  cases c with
  | read addr length =>
    rw [accessTraffic_entering hs addr n hn]
    exact hr.1
  | write addr data =>
    rw [accessTraffic_entering hs addr n hn]
    exact hr.1
  | fetch addr => cases hn
  | flush => cases hn
  | evict addr => cases hn
  | probeInvalidate addr => cases hn
  | probeShare addr => cases hn

theorem Shows.read_ends (hd : FlatDevice content ok answers) (hm : h.Shows content ok m)
    (addr : Word) (length : Nat) :
    (read addr length h).Ends
      (fun r h' => h'.Shows content ok m ∧ r.1 = m.bytes addr.toNat length)
      (fun _ _ => ¬h.Served answers addr length) (h.Crosses addr length) := by
  refine (MemoryHierarchy.read_ends hd hm.sound addr length).mono ?_ (fun _ _ he => he.2) id
  rintro r h' ⟨hs, hr⟩
  have hnew := (hs.newest_eq hm.sound hm.coherent).trans hm.newestEq
  exact ⟨⟨hs.sound, hs.coherent hm.sound hm.coherent, hnew⟩, hnew ▸ hr⟩

theorem Shows.write_ends (hd : FlatDevice content ok answers) (hm : h.Shows content ok m)
    (addr : Word) (data : List Byte) :
    (write addr data h).Ends
      (fun _ h' => h'.Shows content ok (m.write addr.toNat data))
      (fun _ _ => ¬h.Served answers addr data.length) (h.Crosses addr data.length) := by
  refine (MemoryHierarchy.write_ends hd hm.sound addr data).mono ?_ (fun _ _ he => he.2) id
  rintro _ h' ⟨h₁, hs, hw⟩
  have hnew := (hs.newest_eq hm.sound hm.coherent).trans hm.newestEq
  exact ⟨hw.sound, hw.coherent (hs.coherent hm.sound hm.coherent), hw.newest.trans (by rw [hnew])⟩

omit [BlockDevice π] in
theorem Shows.applies {t : Traffic} {h₁ : MemoryHierarchy π} {a : Option (List Byte)}
    (hm : Shows content ok m h) (hs : Settles content ok t h h₁) (ha : Applies content ok c a h₁ h') :
    Shows content ok (c.apply m) h' := by
  refine ⟨ha.sound, ha.coherent (hs.coherent hm.sound hm.coherent), ?_⟩
  rw [ha.newestEq, hs.newest_eq hm.sound hm.coherent, hm.newestEq]

theorem Refines.step (hd : FlatDevice content ok answers) (hm : Refines content ok answers m h)
    (hf : c.Fits h.lineBytes) (hr : c.Reaches answers h.lineBytes) :
    ∃ h', c.run h = .done (c.answer m) h' ∧ Refines content ok answers (c.apply m) h' ∧
      h.Alike h' := by
  have hends := (run_ends hd hm.sound c).sure (fun _ _ he => he.2 ⟨hr, hm.answered⟩)
    fun hb => hb hf
  obtain ⟨a, h', hrun, h₁, hs, ha⟩ := hends.exists_done
  have hnew := (hs.newest_eq hm.sound hm.coherent).trans hm.newestEq
  have hans₁ := hs.toMoves.answered hm.answered (entering_answered hm.sound hr)
  refine ⟨h', ?_, ⟨hm.applies hs ha, ha.answered hans₁⟩, hs.alike.trans ha.alike⟩
  rw [hrun, ha.answerEq, hnew]

theorem Shows.run_done (hd : FlatDevice content ok answers) (hm : Shows content ok m h)
    {a : Option (List Byte)} (hrun : c.run h = .done a h') : Shows content ok (c.apply m) h' := by
  have hends := run_ends hd hm.sound c
  rw [hrun] at hends
  obtain ⟨h₁, hs, ha⟩ := hends
  exact hm.applies hs ha

def runAll : List Call → MemoryStep π (List (Option (List Byte)))
  | [] => return []
  | c :: rest => do
    let a ← c.run
    let as ← runAll rest
    return a :: as

end MemoryHierarchy

def Memory.afterCalls : List MemoryHierarchy.Call → Memory → Memory
  | [], m => m
  | c :: rest, m => afterCalls rest (c.apply m)

def Memory.answersTo : List MemoryHierarchy.Call → Memory → List (Option (List Byte))
  | [], _ => []
  | c :: rest, m => c.answer m :: answersTo rest (c.apply m)

namespace MemoryHierarchy

variable {π : Type} {h h' : MemoryHierarchy π} {content : π → Memory} {ok : π → Prop}
  {answers : Word → Nat → Prop} {c : Call} {m : Memory} {n : Nat} [BlockDevice π]

theorem Shows.runAll_done (hd : FlatDevice content ok answers) (hm : Shows content ok m h)
    {calls : List Call} {as : List (Option (List Byte))} (hrun : runAll calls h = .done as h') :
    Shows content ok (m.afterCalls calls) h' := by
  induction calls generalizing m h as with
  | nil =>
    cases hrun
    exact hm
  | cons c rest ih =>
    rw [runAll] at hrun
    obtain ⟨a, h₁, hfirst, hrun⟩ := Step.bind_eq_done hrun
    obtain ⟨as, h₂, hrest, hrun⟩ := Step.bind_eq_done hrun
    cases hrun
    exact ih (hm.run_done hd hfirst) hrest

theorem Refines.runAll (hd : FlatDevice content ok answers) (hm : Refines content ok answers m h)
    (calls : List Call) (hf : ∀ c ∈ calls, c.Fits h.lineBytes)
    (hr : ∀ c ∈ calls, c.Reaches answers h.lineBytes) :
    ∃ h', runAll calls h = .done (m.answersTo calls) h' ∧
      Refines content ok answers (m.afterCalls calls) h' := by
  induction calls generalizing m h with
  | nil => exact ⟨h, rfl, hm⟩
  | cons c rest ih =>
    obtain ⟨h₁, hrun, hm₁, ha⟩ :=
      hm.step hd (hf c List.mem_cons_self) (hr c List.mem_cons_self)
    have hrest : ∀ k ∈ rest, k.Fits h₁.lineBytes ∧ k.Reaches answers h₁.lineBytes := by
      intro k hk
      rw [ha.lineBytes]
      exact ⟨hf k (List.mem_cons_of_mem _ hk), hr k (List.mem_cons_of_mem _ hk)⟩
    obtain ⟨h', hrun', hm'⟩ := ih hm₁ (fun k hk => (hrest k hk).1) (fun k hk => (hrest k hk).2)
    refine ⟨h', ?_, hm'⟩
    rw [MemoryHierarchy.runAll, Step.bind_done hrun, Step.bind_done hrun']
    rfl

theorem Refines.flush (hd : FlatDevice content ok answers) (hm : Refines content ok answers m h) :
    ∃ n h', MemoryHierarchy.flush h = .done n h' ∧ content h'.port = m ∧
      (∀ addr, h'.dcache.contains addr = false) ∧ ∀ addr, h'.bcache.contains addr = false := by
  have hends := (flush_ends hd hm.sound).sure (fun _ _ he => he.2 hm.answered) not_false
  obtain ⟨n, h', hrun, hs, hdn, hbn⟩ := hends.exists_done
  refine ⟨n, h', hrun, ?_, ?_, ?_⟩
  · rw [← hm.newestEq, ← hs.newest_eq hm.sound hm.coherent]
    funext a
    refine (newestOver_of_none ?_ _).symm
    rw [copy, hdn, hbn, Option.or_none]
  · intro addr
    rw [Cache.contains_eq_isSome hs.sound.dcache, hdn, Option.isSome_none]
  · intro addr
    rw [Cache.contains_eq_isSome hs.sound.bcache, hbn, Option.isSome_none]

theorem calls_refine_flat_memory {config : Config} {p : π} (hvalid : config.validate = .ok ())
    (hc : ofConfig config p = .ok h) (hd : FlatDevice content ok answers) (hp : ok p)
    (calls : List Call) (hf : ∀ c ∈ calls, c.Fits config.cache.dcache.lineBytes)
    (hr : ∀ c ∈ calls, c.Reaches answers config.cache.dcache.lineBytes) :
    ∃ h', MemoryHierarchy.runAll calls h = .done ((content p).answersTo calls) h' ∧
      newest content h' = (content p).afterCalls calls ∧
      ∃ n h'', MemoryHierarchy.flush h' = .done n h'' ∧
        content h''.port = (content p).afterCalls calls ∧
        (∀ addr, h''.dcache.contains addr = false) ∧ ∀ addr, h''.bcache.contains addr = false := by
  obtain ⟨hs, hline, rfl, hn⟩ := ofConfig_spec hvalid hc hp
  rw [← hline] at hf hr
  obtain ⟨h', hrun, hm⟩ := (refines_of_empty hs hn).runAll hd calls hf hr
  exact ⟨h', hrun, hm.newestEq, hm.flush hd⟩

def sampleCache : CacheConfig := ⟨true, 16, 8, 1, .roundRobin, 0⟩

def sampleConfig : Config :=
  { Config.stock with cache := ⟨sampleCache, sampleCache, sampleCache⟩ }

def sampleCalls : List Call := [.write 0 [1], .write 16 [2], .write 32 [3], .read 0 2]

theorem sample_calls_refine_flat_memory :
    ∃ h, ofConfig sampleConfig MemoryPort.sample = .ok h ∧
      ∃ h', runAll sampleCalls h = .done [none, none, none, some [1, 0]] h' ∧
        ∃ n h'', MemoryHierarchy.flush h' = .done n h'' ∧
          MemoryPort.content h''.port 32 = 3 := by
  have hvalid : sampleConfig.validate = .ok () := rfl
  refine ⟨_, rfl, ?_⟩
  obtain ⟨h', hrun, _, n, h'', hflush, hport, _⟩ :=
    calls_refine_flat_memory hvalid (show ofConfig sampleConfig MemoryPort.sample = _ from
      rfl) (MemoryPort.flat_of_open 0 8192) MemoryPort.open_sample sampleCalls (by decide)
      (by decide)
  refine ⟨h', hrun, n, h'', hflush, ?_⟩
  rw [hport]
  rfl

end MemoryHierarchy

end EV6
