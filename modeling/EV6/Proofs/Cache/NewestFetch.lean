import EV6.Proofs.Cache.FlatMemory
/-!
Fetches and data reads. An instruction cache that has to bring in a line brings in the newest copy,
so the fetch gives what a read gives; one that is not enabled leaves the fetch to memory itself, which
may be older than the copy that a data cache holds.
-/

namespace EV6

namespace MemoryHierarchy

open Outcome

variable {π : Type} {h h' : MemoryHierarchy π} {content : π → Memory} {ok : π → Prop}
  {answers : Word → Nat → Prop} {addr : Word}

def CleanAt (h : MemoryHierarchy π) (addr : Word) : Prop :=
  ∀ l, h.copy (h.number addr) = some l → l.dirty = false

theorem newest_bytes_of_clean (hs : h.Sound ok) (hc : Coherent content h) (hclean : h.CleanAt addr)
    {length : Nat} (hx : ¬h.Crosses addr length) :
    (newest content h).bytes addr.toNat length = (content h.port).bytes addr.toNat length := by
  refine Memory.bytes_congr fun a hle hlt => ?_
  have hline : h.number addr = a / h.lineBytes := by
    have hwithin := Nat.le_of_not_lt hx
    have hdm := Nat.div_add_mod' addr.toNat h.lineBytes
    symm
    rw [number, Nat.div_eq_iff hs.lineSize.pos]
    omega
  cases hl : h.copy (h.number addr) with
  | some l => exact hc.newest_of_clean hs hl (hclean l hl) hline
  | none => exact newestOver_of_none (hline ▸ hl) _

variable [BlockDevice π]

def ReadsAs (h : MemoryHierarchy π) (addr : Word) (word : Longword) : Prop :=
  ∀ data access h', read (fetchAddr addr) 4 h = .done (data, access) h' → word = longwordOf data

structure Fetches (content : π → Memory) (h : MemoryHierarchy π) (addr : Word) (word : Longword)
    (h' : MemoryHierarchy π) : Prop where
  dcache : h'.dcache = h.dcache
  bcache : h'.bcache = h.bcache
  memory : content h'.port = content h.port
  filled : h.icache.enabled = true → h.ReadsAs addr word
  uncached : h.icache.enabled = false →
    word = longwordOf ((content h.port).bytes (fetchAddr addr).toNat 4)
  clean : h.CleanAt addr → h.ReadsAs addr word

theorem readsAs_newest (hd : FlatDevice content ok answers) {m : Memory}
    (hm : h.Shows content ok m) (addr : Word) :
    h.ReadsAs addr (longwordOf (m.bytes (fetchAddr addr).toNat 4)) := by
  intro data access h' hread
  have hends := hm.read_ends hd (fetchAddr addr) 4
  rw [hread] at hends
  exact congrArg longwordOf hends.2.symm

omit [BlockDevice π] in
theorem cleanAt_fetchAddr (hs : h.Sound ok) (hclean : h.CleanAt addr) :
    h.CleanAt (fetchAddr addr) := by
  intro l hl
  rw [number_fetchAddr hs] at hl
  exact hclean l hl

theorem Shows.fetches (hd : FlatDevice content ok answers) (hm : h.Shows content ok (newest content h))
    {word : Longword} (hq : Quiet content ok h h')
    (hword : word = longwordOf ((if h.icache.enabled then newest content h else content h.port).bytes
      (fetchAddr addr).toNat 4)) :
    Fetches content h addr word h' := by
  have hread := readsAs_newest hd hm addr
  refine ⟨hq.dcache, hq.bcache, hq.port, fun he => ?_, fun he => ?_, fun hclean => ?_⟩
  · rw [hword, if_pos he]
    exact hread
  · rw [hword, he]
    rfl
  · rw [hword]
    split
    · exact hread
    · rw [← newest_bytes_of_clean hm.sound hm.coherent (cleanAt_fetchAddr hm.sound hclean)
        (fetchAddr_within hm.sound addr)]
      exact hread

theorem fetch_reads_newest {config : Config} {p : π} {h₀ : MemoryHierarchy π}
    (hvalid : config.validate = .ok ()) (hc : ofConfig config p = .ok h₀)
    (hd : FlatDevice content ok answers) (hp : ok p) {calls : List Call}
    {as : List (Option (List Byte))} (hrun : runAll calls h₀ = .done as h)
    (habsent : h.icache.contains addr = false) :
    (fetch addr h).Ends (fun r h' => Fetches content h addr r.1 h')
      (fun _ h' => h'.dcache = h.dcache ∧ h'.bcache = h.bcache ∧ content h'.port = content h.port ∧
        ¬(answers (Address.lineBase (fetchAddr addr) h.lineBytes) h.lineBytes ∧
          answers (fetchAddr addr) 4)) False := by
  obtain ⟨hs₀, -, -, hn⟩ := ofConfig_spec hvalid hc hp
  have hm := (shows_of_empty hs₀ hn).runAll_done hd hrun
  have hm : h.Shows content ok (newest content h) := ⟨hm.sound, hm.coherent, rfl⟩
  refine (fetch_gives hd hm.sound addr).mono ?_ ?_ id
  · rintro r h' ⟨hq, hword⟩
    exact hm.fetches hd hq (hword habsent)
  · rintro _ h' ⟨hq, hans⟩
    exact ⟨hq.dcache, hq.bcache, hq.port, hans⟩

theorem sample_fetch_reads_newest :
    ∃ h₀ h as, ofConfig sampleConfig MemoryPort.sample = .ok h₀ ∧
      runAll [.write 0 [1, 2, 3, 4]] h₀ = .done as h ∧
      ∃ r h', fetch 0 h = .done r h' ∧ Fetches MemoryPort.content h 0 r.1 h' := by
  have hvalid : sampleConfig.validate = .ok () := rfl
  obtain ⟨h₀, h, as, hc, hrun, habsent, r, h', hfetch⟩ :
      ∃ h₀ h as, ofConfig sampleConfig MemoryPort.sample = .ok h₀ ∧
        runAll [.write 0 [1, 2, 3, 4]] h₀ = .done as h ∧ h.icache.contains 0 = false ∧
        ∃ r h', fetch 0 h = .done r h' := ⟨_, _, _, rfl, rfl, rfl, _, _, rfl⟩
  have hends := fetch_reads_newest hvalid hc (MemoryPort.flat_of_open 0 8192) MemoryPort.open_sample
    hrun habsent
  rw [hfetch] at hends
  exact ⟨h₀, h, as, hc, hrun, r, h', hfetch, hends⟩

def uncachedFetchConfig : Config :=
  { sampleConfig with
    cache := { sampleConfig.cache with icache := { sampleCache with enabled := false } } }

theorem uncached_fetch_is_stale :
    uncachedFetchConfig.validate = .ok () ∧
      ∃ h₀ h as, ofConfig uncachedFetchConfig MemoryPort.sample = .ok h₀ ∧
        runAll [.write 0 [1, 2, 3, 4]] h₀ = .done as h ∧ h.icache.contains 0 = false ∧
        ∃ word access h' data access' h'', fetch 0 h = .done (word, access) h' ∧
          read 0 4 h = .done (data, access') h'' ∧ word ≠ longwordOf data :=
  ⟨rfl, _, _, _, rfl, rfl, rfl, _, _, _, _, _, _, rfl, rfl, by decide⟩

end MemoryHierarchy

end EV6
