import EV6.Proofs.Execution.Executed
import EV6.Proofs.Execution.Stable
import EV6.Proofs.Mbox.Access

namespace EV6

open Step Outcome

namespace Statistics

structure Balanced (k : EnabledCaches) (branches : Nat) (s : Statistics) : Prop where
  retired : s.instructionsRetired = s.integerRetired + s.floatRetired + s.loadRetired +
    s.storeRetired + s.branchRetired + s.systemRetired
  predictions : s.predicted + s.mispredicted = branches
  dcache : s.dcacheHits + s.dcacheMisses = if k.dcache then s.loadsIssued + s.storesRetired else 0
  forwards : s.storeForwards ≤ s.loadsIssued
  bcacheDisabled : k.bcache = false → s.bcacheHits + s.bcacheMisses = 0
  bcacheEnabled : k.bcache = true → s.dcacheMisses ≤ s.bcacheHits + s.bcacheMisses ∧
    s.bcacheHits + s.bcacheMisses ≤ s.dcacheMisses + s.icacheMisses

variable {k : EnabledCaches} {branches : Nat} {s t : Statistics}

theorem balanced_zero : zero.Balanced k 0 := by
  refine ⟨rfl, rfl, ?_, Nat.le_refl _, fun _ => rfl, fun _ => ⟨Nat.le_refl _, Nat.le_refl _⟩⟩
  cases k.dcache <;> rfl

theorem Balanced.of_balance (h : s.Balanced k branches) (ht : t.balance = s.balance) :
    t.Balanced k branches := by
  have hs : s.balance.Balanced k branches := ⟨h.1, h.2, h.3, h.4, h.5, h.6⟩
  rw [← ht] at hs
  exact ⟨hs.1, hs.2, hs.3, hs.4, hs.5, hs.6⟩

theorem Balanced.countRetired (h : s.Balanced k branches) (m : Mnemonic) :
    (s.countRetired m).Balanced k branches := by
  have hsum : (s.countRetired m).instructionsRetired =
      (s.countRetired m).integerRetired + (s.countRetired m).floatRetired +
      (s.countRetired m).loadRetired + (s.countRetired m).storeRetired +
      (s.countRetired m).branchRetired + (s.countRetired m).systemRetired := by
    have := h.retired
    cases m <;> simp only [Statistics.countRetired] <;> omega
  obtain ⟨-, hpredictions, hdcache, hforwards, hdisabled, henabled⟩ := h
  cases m <;> exact ⟨hsum, hpredictions, hdcache, hforwards, hdisabled, henabled⟩

end Statistics

namespace Core

variable {π : Type} {k : EnabledCaches} {branches : Nat} {c t : Core π}

structure Conserved (k : EnabledCaches) (branches : Nat) (c : Core π) : Prop where
  caches : c.memory.enabled = k
  statistics : c.statistics.Balanced k branches

theorem countFill_statistics (hcaches : c.memory.enabled = k) {level : HitLevel}
    (hlevel : level = .bcache → k.bcache = true) (hmissed : level = .bcache ∨ level = .memory) :
    ∃ hits misses, (countFill level c).statistics =
        { c.statistics with bcacheHits := hits, bcacheMisses := misses } ∧
      hits + misses = c.statistics.bcacheHits + c.statistics.bcacheMisses +
        if k.bcache then 1 else 0 := by
  rcases hmissed with rfl | rfl
  · refine ⟨_, _, rfl, ?_⟩
    rw [if_pos (hlevel rfl), Nat.add_right_comm]
  · have henabled : c.memory.bcache.enabled = k.bcache := congrArg EnabledCaches.bcache hcaches
    unfold countFill
    dsimp only
    rw [henabled]
    cases hb : k.bcache with
    | false => exact ⟨_, _, rfl, rfl⟩
    | true => exact ⟨_, _, rfl, rfl⟩

theorem balanced_countAccess {s : Statistics} (h : s.Balanced k branches) {access : Access}
    (hlevel : access.level.ServesData k) (hcaches : c.memory.enabled = k) {loads stores forwards : Nat}
    (hstatistics : c.statistics =
      { s with loadsIssued := loads, storesRetired := stores, storeForwards := forwards })
    (hissued : loads + stores = s.loadsIssued + s.storesRetired + 1) (hforwards : forwards ≤ loads) :
    (countAccess access c).statistics.Balanced k branches := by
  have hcached : access.level ≠ .uncached →
      s.dcacheHits + s.dcacheMisses = s.loadsIssued + s.storesRetired ∧ k.dcache = true := by
    intro hne
    have hk : k.dcache = true := by simpa using mt hlevel.uncached.mpr hne
    exact ⟨by simpa [hk] using h.dcache, hk⟩
  obtain ⟨level, latency, writebacks⟩ := access
  obtain ⟨hretired, hpredictions, hdcache, -, hdisabled, henabled⟩ := h
  -- Any level but the uncached one makes up for the access among the hits and misses of the data
  -- cache, and what the board cache counts moves with a miss there.
  cases level with
  | uncached =>
    have hk : k.dcache = false := hlevel.uncached.mp rfl
    simp only [countAccess, count, hstatistics]
    exact ⟨hretired, hpredictions, by simpa [hk] using hdcache, hforwards, hdisabled, henabled⟩
  | firstLevel =>
    obtain ⟨hsum, hk⟩ := hcached nofun
    simp only [countAccess, count, hstatistics]
    refine ⟨hretired, hpredictions, ?_, hforwards, hdisabled, henabled⟩
    simp only [hk, if_true]
    omega
  | bcache | memory =>
    obtain ⟨hsum, hk⟩ := hcached nofun
    obtain ⟨hits, misses, hfill, htotal⟩ := countFill_statistics
      (c := (c.count fun s => { s with writebacks := s.writebacks + writebacks }).count
        fun s => { s with dcacheMisses := s.dcacheMisses + 1 }) hcaches hlevel.bcache (by simp)
    simp only [count, hstatistics] at hfill htotal
    change (countFill _ _).statistics.Balanced k branches
    rw [count, count, hstatistics, hfill]
    refine ⟨hretired, hpredictions, ?_, hforwards, fun hoff => ?_, fun hon => ?_⟩
    · simp only [hk, if_true]
      omega
    · have hnone := hdisabled hoff
      rw [hoff, if_neg Bool.false_ne_true] at htotal
      exact htotal.trans hnone
    · have hbounds := henabled hon
      rw [if_pos hon] at htotal
      dsimp only
      omega

theorem balanced_countFetch (h : c.statistics.Balanced k branches) (hit : Bool) {level : HitLevel}
    (hlevel : level.ServesFetch k) (hcaches : c.memory.enabled = k) :
    (countFetch hit level c).statistics.Balanced k branches := by
  obtain ⟨hretired, hpredictions, hdcache, hforwards, hdisabled, henabled⟩ := h
  unfold countFetch
  split
  · exact ⟨hretired, hpredictions, hdcache, hforwards, hdisabled, henabled⟩
  split
  · exact ⟨hretired, hpredictions, hdcache, hforwards, hdisabled, henabled⟩
  cases level with
  | firstLevel | uncached =>
    refine ⟨hretired, hpredictions, hdcache, hforwards, hdisabled, fun hon => ?_⟩
    have hbounds := henabled hon
    exact ⟨hbounds.1, Nat.le_succ_of_le hbounds.2⟩
  | bcache | memory =>
    obtain ⟨hits, misses, hfill, htotal⟩ := countFill_statistics
      (c := c.count fun s => { s with icacheMisses := s.icacheMisses + 1 }) hcaches hlevel (by simp)
    rw [hfill]
    refine ⟨hretired, hpredictions, hdcache, hforwards, fun hoff => ?_, fun hon => ?_⟩
    · have hnone := hdisabled hoff
      rw [hoff, if_neg Bool.false_ne_true] at htotal
      exact htotal.trans hnone
    · have hbounds := henabled hon
      rw [if_pos hon] at htotal
      dsimp only [count] at htotal ⊢
      omega

theorem countAccess_memory (access : Access) (c : Core π) :
    (countAccess access c).memory = c.memory := countAccess_same access c

theorem stable_conserved (k : EnabledCaches) (branches : Nat) :
    Stable (Conserved k branches : Core π → Prop) := by
  constructor
  case mbox => exact fun _ hc hmbox => ⟨hmbox.trans hc.caches, hc.statistics⟩
  case translation => exact fun _ hc => ⟨hc.caches, hc.statistics⟩
  case lock => exact fun _ hc => ⟨hc.caches, hc.statistics⟩
  case flag => exact fun _ hc => ⟨hc.caches, hc.statistics⟩
  case latch => exact fun _ _ _ hc => ⟨hc.caches, hc.statistics⟩
  case tick => exact fun _ hc => ⟨hc.caches, hc.statistics⟩
  case count => exact fun _ hf hc => ⟨hc.caches, hc.statistics.of_balance (hf _)⟩
  case load =>
    rintro c ⟨access, forwarded⟩ hlevel ⟨rfl, hc⟩
    have hforwards := hc.forwards
    have hissued := Nat.add_right_comm c.statistics.loadsIssued 1 c.statistics.storesRetired
    have hmemory : (c.countLoad ⟨access, forwarded⟩).memory = c.memory :=
      (countAccess_memory _ _).trans (countWhen_same forwarded _ _)
    refine ⟨congrArg MemoryHierarchy.enabled hmemory, ?_⟩
    cases forwarded with
    | false =>
      exact balanced_countAccess hc hlevel rfl rfl hissued (Nat.le_succ_of_le hforwards)
    | true => exact balanced_countAccess hc hlevel rfl rfl hissued (Nat.succ_le_succ hforwards)
  case store =>
    rintro c access hlevel ⟨rfl, hc⟩
    refine ⟨congrArg MemoryHierarchy.enabled (countAccess_memory _ _), ?_⟩
    exact balanced_countAccess hc hlevel rfl rfl (Nat.add_assoc _ _ _).symm hc.forwards
  case fetch =>
    rintro c hit level hlevel ⟨rfl, hc⟩
    refine ⟨congrArg MemoryHierarchy.enabled (countFetch_same hit level c), ?_⟩
    exact balanced_countFetch hc hit hlevel rfl

theorem Conserved.of_same (h : c.Conserved k branches) (hmemory : t.memory = c.memory)
    (hstatistics : t.statistics = c.statistics) : t.Conserved k branches :=
  ⟨hmemory ▸ h.caches, hstatistics ▸ h.statistics⟩

theorem Conserved.callPal (h : c.Conserved k branches) (returnPc : Word) :
    (c.callPal returnPc).Conserved k branches := h.of_same rfl rfl

theorem Conserved.palReturn (h : c.Conserved k branches) (target : Word) :
    (c.palReturn target).Conserved k branches := by
  unfold Core.palReturn
  split <;> exact h.of_same rfl rfl

theorem Conserved.writeIndex (h : c.Conserved k branches) (index : Nat) (value : Word) :
    (c.writeIndex index value).Conserved k branches := by
  unfold Core.writeIndex
  split
  · rename_i r _
    cases r <;> exact h.of_same rfl rfl
  · exact h

theorem Conserved.learn (h : c.Conserved k branches) (i : Instruction) (taken : Bool) :
    (c.learn i taken).Conserved k (branches + 1) := by
  obtain ⟨hcaches, ⟨hretired, hpredictions, hdcache, hforwards, hdisabled, henabled⟩⟩ := h
  refine ⟨hcaches, ?_⟩
  subst hpredictions
  unfold Core.learn
  dsimp only
  split
  · exact ⟨hretired, Nat.add_right_comm _ _ _, hdcache, hforwards, hdisabled, henabled⟩
  · exact ⟨hretired, rfl, hdcache, hforwards, hdisabled, henabled⟩

def retiring (i : Instruction) : Nat := if i.mnemonic.isConditionalBranch then 1 else 0

theorem Conserved.committed (h : c.Conserved k branches) {i : Instruction} (hi : i.Settled) :
    (c.committed i).Conserved k (branches + retiring i) := by
  unfold Core.committed
  cases hbranch : i.branch with
  | none =>
    have hplain : ¬i.mnemonic.isConditionalBranch = true := fun hm => by simpa [hbranch] using hi hm
    rw [retiring, if_neg hplain]
    exact h
  | some outcome =>
    dsimp only
    unfold commitBranch
    split
    · rename_i hm
      rw [retiring, hm]
      exact h.callPal _
    · rename_i hm
      rw [retiring, hm]
      exact h.palReturn _
    · rw [retiring]
      split
      · exact h.learn i outcome.taken
      · exact h

variable [BlockDevice π]

theorem Conserved.retire (h : c.Conserved k branches) {i : Instruction} (hi : i.Settled) :
    (c.retire i).Ends (fun _ t => t.core.Conserved k (branches + retiring i))
      (fun _ t => t.core.Conserved k branches) True := by
  refine (stable_conserved k branches).retire i (fun d hd => ?_) h
  have hcommitted := hd.committed hi
  exact ⟨hcommitted.caches, hcommitted.statistics.countRetired i.mnemonic⟩

theorem Conserved.operate (h : c.Conserved k branches) {op : Operation}
    (hop : ∀ i, op ≠ .retire i) (ht : c.operate op = some t) : t.Conserved k branches := by
  have hstable := stable_conserved (π := π) k branches
  by_cases hservice : op.Service
  · exact hstable.service hservice h ht
  · cases op with
    | execute i =>
      refine Execution.stable_left (hstable.execute (fun _ _ _ _ hd => ?_) (fun _ _ hd => ?_) h) ht
      · exact hd.of_same rfl rfl
      · exact hd.writeIndex _ _
    | retire i => exact absurd rfl (hop i)
    | enterPal fault seq pc =>
      cases ht
      exact ⟨h.caches, h.statistics.of_balance rfl⟩
    | callPal returnPc =>
      cases ht
      exact h.callPal returnPc
    | palReturn target =>
      cases ht
      exact h.palReturn target
    | writeIndex index value =>
      cases ht
      exact h.writeIndex index value
    | setModes bigEndian palMode mode =>
      cases ht
      exact h.of_same rfl rfl
    | _ => exact absurd trivial hservice

inductive Retires (config : Config) (port : π) : Nat → Core π → Prop
  | start {c : Core π} (h : ofConfig config port = .ok c) : Retires config port 0 c
  | operate {branches : Nat} {c t : Core π} (hc : Retires config port branches c) (op : Operation)
      (hop : ∀ i, op ≠ .retire i) (ht : c.operate op = some t) : Retires config port branches t
  | retire {branches : Nat} {c : Core π} {e : Execution π} (hc : Retires config port branches c)
      {i : Instruction} (hi : i.HasExecuted π) (he : c.retire i = .done () e) :
      Retires config port (branches + retiring i) e.core
  | failure {branches : Nat} {c : Core π} {fault : Fault} {e : Execution π}
      (hc : Retires config port branches c) {i : Instruction} (hi : i.HasExecuted π)
      (he : c.retire i = .failed fault e) : Retires config port branches e.core

variable {config : Config} {port : π}

omit [BlockDevice π] in
theorem conserved_ofConfig (h : ofConfig config port = .ok c) :
    c.Conserved config.enabledCaches 0 := by
  have hfresh := fresh_ofConfig h
  have hmemory := (Mbox.fresh_ofConfig hfresh.mbox).memory
  exact ⟨MemoryHierarchy.enabled_ofConfig hmemory, hfresh.statistics ▸ Statistics.balanced_zero⟩

theorem Retires.conserved (h : Retires config port branches c) :
    c.Conserved config.enabledCaches branches := by
  induction h with
  | start h => exact conserved_ofConfig h
  | operate _ op hop ht ih => exact ih.operate hop ht
  | retire _ hi he ih =>
    have hends := ih.retire hi.settled
    rw [he] at hends
    exact hends
  | failure _ hi he ih =>
    have hends := ih.retire hi.settled
    rw [he] at hends
    exact hends

theorem statistics_conserved (h : Retires config port branches c) :
    c.memory.enabled = config.enabledCaches ∧
      c.statistics.Balanced config.enabledCaches branches :=
  ⟨h.conserved.caches, h.conserved.statistics⟩

def branchTaken : Instruction :=
  { Instruction.ofMnemonic (.control (.branch (.zero .eq))) 1 with
    state := .waitingRetirement
    prediction := some ⟨true, true, true, true⟩
    branch := some ⟨true, 4⟩ }

theorem statistics_conserved_branch :
    ∃ core : Core MemoryPort, Retires Config.stock MemoryPort.sample 1 core ∧
      (core.memory.enabled = Config.stock.enabledCaches ∧
        core.statistics.Balanced Config.stock.enabledCaches 1) ∧
      core.statistics.bcacheMisses = 1 := by
  obtain ⟨core, hcore, loaded, hload, hmisses⟩ :
      ∃ core : Core MemoryPort, ofConfig Config.stock MemoryPort.sample = .ok core ∧
        ∃ t, core.operate (.readPhysical (.ofMnemonic (.load .ldq) 0) 0 .quad) = some t ∧
          t.statistics.bcacheMisses = 1 := ⟨_, rfl, _, rfl, rfl⟩
  have hexecuted : branchTaken.HasExecuted MemoryPort :=
    .execute (show (loaded.execute branchTaken).state? = some ⟨loaded, branchTaken⟩ from rfl)
  have hretired := ((Retires.start hcore).operate _ (by intro _ h; cases h) hload).retire hexecuted rfl
  exact ⟨_, hretired, statistics_conserved hretired, hmisses⟩

end Core

end EV6
