import EV6.Proofs.Cache.Exclusive
/-!
Clean lines against memory. A call that fails before any write has failed has left every copy and
memory as they were, so that up to the first failed write a line that is not dirty is what memory
holds.
-/

namespace EV6

open Step Outcome

structure Watched (π : Type) where
  device : π
  writeFailed : Bool

namespace Watched

variable {π : Type} [BlockDevice π] {content : π → Memory} {ok : π → Prop}
  {answers : Word → Nat → Prop}

def readBlock (addr : Word) (length : Nat) : Step (Watched π) BusError (List Byte) :=
  onPart device (fun device w => { w with device }) (BlockDevice.readBlock addr length)

def writeBlock (addr : Word) (data : List Byte) : Step (Watched π) BusError Unit := fun w =>
  match BlockDevice.writeBlock addr data w.device with
  | .done u device => .done u { w with device }
  | .failed e device => .failed e ⟨device, true⟩
  | .broken b => .broken b

instance : BlockDevice (Watched π) := ⟨readBlock, writeBlock⟩

theorem flat (hd : FlatDevice content ok answers) :
    FlatDevice (fun w : Watched π => content w.device) (fun w => ok w.device) answers where
  read_ends {w} hw addr length := by
    change (readBlock addr length w).Ends _ _ _
    refine (ends_onPart (hd.read_ends hw addr length)).mono ?_ ?_ id
    · rintro data _ ⟨p, hp, rfl⟩
      exact hp
    · rintro _ _ ⟨p, hp, rfl⟩
      exact hp
  write_ends {w} hw addr data := by
    have hends := hd.write_ends hw addr data
    change (writeBlock addr data w).Ends _ _ _
    rw [writeBlock]
    cases ho : BlockDevice.writeBlock addr data w.device with
    | done u p =>
      rw [ho] at hends
      exact hends
    | failed e p =>
      rw [ho] at hends
      exact hends
    | broken b =>
      rw [ho] at hends
      exact hends

theorem writeBlock_fails (addr : Word) (data : List Byte) (w : Watched π) :
    (BlockDevice.writeBlock addr data w).Ends (fun _ _ => True) (fun _ w' => w'.writeFailed = true)
      True := by
  change (writeBlock addr data w).Ends _ _ _
  rw [writeBlock]
  cases BlockDevice.writeBlock addr data w.device <;> trivial

end Watched

namespace MemoryHierarchy

variable {π : Type} {α β : Type}

def MarksFailure (x : MemoryStep (Watched π) α) : Prop :=
  ∀ h, (x h).Ends (fun _ _ => True) (fun _ h' => h'.port.writeFailed = true) True

theorem MarksFailure.bind {x : MemoryStep (Watched π) α} {f : α → MemoryStep (Watched π) β}
    (hx : MarksFailure x) (hf : ∀ a, MarksFailure (f a)) : MarksFailure (x >>= f) :=
  fun h => ends_bind (hx h) fun a h' _ => hf a h'

theorem marks_pure (a : α) : MarksFailure (pure a : MemoryStep (Watched π) α) := fun _ => trivial

theorem marks_check (x : Except Breach α) :
    MarksFailure (Step.check x : MemoryStep (Watched π) α) := by
  cases x with
  | error b => exact fun _ => trivial
  | ok a => exact fun _ => trivial

theorem marks_get : MarksFailure (get : MemoryStep (Watched π) (MemoryHierarchy (Watched π))) :=
  fun _ => trivial

theorem marks_onCache (name : CacheName) {x : Step Cache BusError α} (hx : Cache.Steady x) :
    MarksFailure (onCache name x : MemoryStep (Watched π) α) := fun h =>
  (onCache_ends name (hx (h.cache name))).mono (fun _ _ _ => trivial) (fun _ _ ⟨_, hf, _⟩ => hf.elim)
    id

variable [BlockDevice π] {h h' : MemoryHierarchy (Watched π)} {content : π → Memory}

theorem marks_writeBlock (addr : Word) (data : List Byte) :
    MarksFailure (onPort (BlockDevice.writeBlock addr data) : MemoryStep (Watched π) Unit) := by
  intro h
  refine (onPort_ends (Watched.writeBlock_fails addr data h.port)).mono (fun _ _ _ => trivial) ?_ id
  rintro _ _ ⟨p, hp, rfl⟩
  exact hp

theorem marks_writeBackDirty (vs : List Victim) :
    MarksFailure (writeBackDirty vs : MemoryStep (Watched π) Nat) := by
  induction vs with
  | nil => exact marks_pure 0
  | cons v rest ih =>
    rw [writeBackDirty]
    split
    · exact (marks_writeBlock v.addr v.data).bind fun _ => ih.bind fun _ => marks_pure _
    · exact ih

theorem marks_placeVictim (v : Victim) :
    MarksFailure (placeVictim v : MemoryStep (Watched π) Nat) := by
  refine marks_get.bind fun h => ?_
  split
  · exact (marks_onCache .bcache (Cache.steady_fill _ _ _)).bind fun _ => marks_writeBackDirty _
  · exact marks_writeBackDirty _

theorem marks_installLine (base : Word) (data : List Byte) (dirty : Bool) :
    MarksFailure (installLine base data dirty : MemoryStep (Watched π) Nat) := by
  refine (marks_onCache .dcache (Cache.steady_fill _ _ _)).bind fun v => ?_
  cases v with
  | none => exact marks_pure 0
  | some v => exact marks_placeVictim v

omit [BlockDevice π] in
theorem marks_takeLine (addr : Word) :
    MarksFailure (takeLine addr : MemoryStep (Watched π) (List Victim)) :=
  (marks_onCache .dcache (Cache.steady_invalidate addr)).bind fun _ =>
    (marks_onCache .bcache (Cache.steady_invalidate addr)).bind fun _ => marks_pure _

theorem marks_flush : MarksFailure (MemoryHierarchy.flush : MemoryStep (Watched π) Nat) :=
  (marks_onCache .dcache Cache.steady_flush).bind fun _ =>
    (marks_onCache .bcache Cache.steady_flush).bind fun _ => (marks_writeBackDirty _).bind fun _ =>
    (marks_onCache .icache Cache.steady_cleared).bind fun _ => marks_pure _

theorem marks_evict (addr : Word) :
    MarksFailure (MemoryHierarchy.evict addr : MemoryStep (Watched π) Bool) :=
  (marks_takeLine addr).bind fun _ => (marks_writeBackDirty _).bind fun _ => marks_pure _

theorem marks_probeInvalidate (addr : Word) :
    MarksFailure (MemoryHierarchy.probeInvalidate addr : MemoryStep (Watched π) ProbeResult) :=
  (marks_onCache .icache (Cache.steady_invalidate addr)).bind fun _ =>
    (marks_takeLine addr).bind fun _ => (marks_writeBackDirty _).bind fun _ => marks_pure _

theorem marks_probeShare (addr : Word) :
    MarksFailure (MemoryHierarchy.probeShare addr : MemoryStep (Watched π) ProbeResult) :=
  marks_get.bind fun _ => (marks_onCache .dcache (Cache.steady_share addr)).bind fun _ =>
    (marks_onCache .bcache (Cache.steady_share addr)).bind fun _ =>
    (marks_writeBackDirty _).bind fun _ => marks_pure _

structure Undamaged (content : π → Memory) (h h' : MemoryHierarchy (Watched π)) : Prop where
  copy : ∀ n, h'.copy n = h.copy n
  alike : h.Alike h'
  memory : content h'.port.device = content h.port.device

abbrev WatchedCoherent (content : π → Memory) (h : MemoryHierarchy (Watched π)) : Prop :=
  Coherent (fun w : Watched π => content w.device) h

omit [BlockDevice π] in
theorem Undamaged.coherent (hu : Undamaged content h h') (hc : WatchedCoherent content h) :
    WatchedCoherent content h' := by
  intro n l hl hd
  rw [hu.copy] at hl
  change l.data = (content h'.port.device).bytes (n * h'.lineBytes) h'.lineBytes
  rw [hu.memory, hu.alike.lineBytes]
  exact hc n l hl hd

def FailsSafely (content : π → Memory) (x : MemoryStep (Watched π) α)
    (h : MemoryHierarchy (Watched π)) : Prop :=
  (x h).Ends (fun _ _ => True)
    (fun _ h' => h'.port.writeFailed = true ∨ Undamaged content h h') True

omit [BlockDevice π] in
theorem MarksFailure.safe {x : MemoryStep (Watched π) α} (hx : MarksFailure x)
    (h : MemoryHierarchy (Watched π)) : FailsSafely content x h :=
  (hx h).mono (fun _ _ hq => hq) (fun _ _ he => .inl he) id

omit [BlockDevice π] in
theorem FailsSafely.bind {x : MemoryStep (Watched π) α} {f : α → MemoryStep (Watched π) β}
    (hx : FailsSafely content x h) (hf : ∀ a, MarksFailure (f a)) :
    FailsSafely content (x >>= f) h :=
  ends_bind hx fun a h' _ => (hf a h').mono (fun _ _ hq => hq) (fun _ _ he => .inl he) id

section

variable (hd : FlatDevice content (fun _ => True) fun _ _ => False)

include hd

theorem safe_readBlock (addr : Word) (length : Nat) (h : MemoryHierarchy (Watched π)) :
    FailsSafely content (onPort (BlockDevice.readBlock addr length)) h := by
  refine (onPort_ends ((Watched.flat hd).read_ends trivial addr length)).mono
    (fun _ _ _ => trivial) ?_ fun _ => trivial
  rintro _ _ ⟨p, ⟨-, hp, -⟩, rfl⟩
  exact .inr ⟨fun _ => rfl, (Alike.refl h).withPort p, hp⟩

theorem safe_loadLine (hs : h.Sound fun _ => True) {base : Word}
    (hmiss : h.dcache.line (h.number base) = none) : FailsSafely content (loadLine base) h := by
  cases hbl : h.bcache.line (h.number base) with
  | some l =>
    rw [FailsSafely, loadLine_hit hs hbl]
    trivial
  | none =>
    have hcopy (n : Nat) : (h.behind base).copy n = h.copy n := by
      rw [behind_copy hs hmiss]
      split
      · subst n
        rw [copy, hmiss, hbl, Option.or_none]
      · rfl
    rw [FailsSafely, loadLine_miss hs hbl]
    refine ((safe_readBlock hd base h.lineBytes (h.behind base)).bind fun _ => marks_pure _).mono
      (fun _ _ hq => hq) ?_ id
    rintro _ h' (hf | hu)
    · exact .inl hf
    · exact .inr ⟨fun n => (hu.copy n).trans (hcopy n),
        (behind_becomes hs base).alike.trans hu.alike, hu.memory⟩

theorem safe_ensureLine (hs : h.Sound fun _ => True) (addr : Word) :
    FailsSafely content (ensureLine addr) h := by
  rw [FailsSafely, ensureLine, Step.bind_done (Step.get_apply h),
    Cache.contains_eq_isSome hs.dcache]
  cases hdl : h.dcache.line (h.dcache.number addr) with
  | some l => trivial
  | none =>
    have hmiss : h.dcache.line (h.number (Address.lineBase addr h.lineBytes)) = none := by
      rw [number_lineBase hs]
      exact hdl
    simp only [Option.isSome_none, Bool.false_eq_true, if_false]
    refine (safe_loadLine hd hs hmiss).bind fun r => (marks_installLine _ _ _).bind fun n => ?_
    split
    · exact marks_pure _
    · exact marks_pure _

theorem safe_readUncached (addr : Word) (length : Nat) (h : MemoryHierarchy (Watched π)) :
    FailsSafely content (readUncached addr length) h := by
  refine (safe_readBlock hd addr length h).bind fun data => ?_
  split
  · exact (marks_check _).bind fun _ => marks_pure _
  · exact marks_pure _

theorem safe_read (hs : h.Sound fun _ => True) (addr : Word) (length : Nat) :
    FailsSafely content (MemoryHierarchy.read addr length) h := by
  rw [FailsSafely, MemoryHierarchy.read, Step.bind_done (Step.get_apply h)]
  by_cases he : h.dcache.enabled = true
  · simp only [if_pos he]
    exact (safe_ensureLine hd hs addr).bind fun _ =>
      (marks_onCache .dcache (Cache.steady_read addr length)).bind fun _ => marks_pure _
  · simp only [if_neg he]
    exact (safe_readUncached hd addr length h).bind fun _ => marks_pure _

theorem safe_write (hs : h.Sound fun _ => True) (addr : Word) (data : List Byte) :
    FailsSafely content (MemoryHierarchy.write addr data) h := by
  rw [FailsSafely, MemoryHierarchy.write, Step.bind_done (Step.get_apply h)]
  by_cases he : h.dcache.enabled = true
  · simp only [if_pos he]
    exact (safe_ensureLine hd hs addr).bind fun _ =>
      (marks_onCache .dcache (Cache.steady_write addr data)).bind fun _ => marks_pure _
  · simp only [if_neg he]
    exact ((marks_writeBlock addr data).bind fun _ => marks_pure _).safe h

theorem safe_fetch (hs : h.Sound fun _ => True) (addr : Word) :
    FailsSafely content (MemoryHierarchy.fetch addr) h := by
  refine (fetch_gives (Watched.flat hd) hs addr).mono (fun _ _ _ => trivial) ?_ False.elim
  rintro _ h' ⟨hq, -⟩
  exact .inr ⟨hq.copy, hq.alike, hq.port⟩

theorem safe_call (hs : h.Sound fun _ => True) (c : Call) : FailsSafely content c.run h := by
  cases c with
  | read addr length => exact (safe_read hd hs addr length).bind fun _ => marks_pure _
  | write addr data => exact (safe_write hd hs addr data).bind fun _ => marks_pure _
  | fetch addr => exact (safe_fetch hd hs addr).bind fun _ => marks_pure _
  | flush => exact (marks_flush.bind fun _ => marks_pure _).safe h
  | evict addr => exact ((marks_evict addr).bind fun _ => marks_pure _).safe h
  | probeInvalidate addr => exact ((marks_probeInvalidate addr).bind fun _ => marks_pure _).safe h
  | probeShare addr => exact ((marks_probeShare addr).bind fun _ => marks_pure _).safe h

theorem coherent_of_state {c : Call} (hs : h.Sound fun _ => True) (hc : WatchedCoherent content h)
    (hrun : (c.run h).state? = some h') (hf : h'.port.writeFailed = false) :
    WatchedCoherent content h' := by
  cases ho : c.run h with
  | done a h₁ =>
    rw [ho] at hrun
    cases hrun
    have hends := run_ends (Watched.flat hd) hs c
    rw [ho] at hends
    obtain ⟨h₂, hm, ha⟩ := hends
    exact ha.coherent (hm.coherent hs hc)
  | failed e h₁ =>
    rw [ho] at hrun
    cases hrun
    have hends := safe_call hd hs c
    rw [FailsSafely, ho] at hends
    rcases hends with hfailed | hu
    · rw [hf] at hfailed
      cases hfailed
    · exact hu.coherent hc
  | broken b =>
    rw [ho] at hrun
    cases hrun

/-- What a hierarchy comes to by calls, failed ones among them, as long as no write to the device
has failed and nobody else changes what the device holds. -/
inductive Undisturbed (content : π → Memory) (config : Config) : MemoryHierarchy (Watched π) → Prop
  | start {p : Watched π} {h : MemoryHierarchy (Watched π)} :
    config.validate = .ok () → ofConfig config p = .ok h → p.writeFailed = false →
    Undisturbed content config h
  | call {h h' : MemoryHierarchy (Watched π)} (c : Call) :
    Undisturbed content config h → (c.run h).state? = some h' → h'.port.writeFailed = false →
    Undisturbed content config h'
  | device {h : MemoryHierarchy (Watched π)} (p : Watched π) :
    Undisturbed content config h → content p.device = content h.port.device →
    p.writeFailed = false → Undisturbed content config (h.withPort p)

omit hd in
theorem Undisturbed.reachable {config : Config} (hu : Undisturbed content config h) :
    Reachable config h := by
  induction hu with
  | start hvalid hc _ => exact .start hvalid hc
  | call c _ hrun _ ih => exact .call c ih hrun
  | device p _ _ _ ih => exact .device p ih

theorem Undisturbed.coherent {config : Config} (hu : Undisturbed content config h) :
    WatchedCoherent content h := by
  induction hu with
  | @start p h hvalid hc _ =>
    intro n l hl
    obtain ⟨-, -, -, hnone⟩ :
        h.Sound (fun _ => True) ∧ _ ∧ _ ∧ ∀ n, h.copy n = none := ofConfig_spec hvalid hc trivial
    rw [hnone] at hl
    cases hl
  | call c hu hrun hf ih => exact coherent_of_state hd hu.reachable.tidy.sound ih hrun hf
  | @device h p _ hp _ ih =>
    intro n l hl hclean
    change l.data = (content p.device).bytes (n * h.lineBytes) h.lineBytes
    rw [hp]
    exact ih n l hl hclean

omit hd [BlockDevice π] in
theorem Tidy.copy_of_holds (ht : h.Tidy) {set way : Nat} {b : Word} {l : CacheLine}
    (hl : h.dcache.Holds set way b l ∨ h.bcache.Holds set way b l) :
    h.copy (h.number b) = some l ∧ b.toNat = h.number b * h.lineBytes := by
  have hs := ht.sound
  rcases hl with hl | hl
  · exact ⟨Sound.copy_of_dcache (hl.line hs.dcache), hl.toNat_eq hs.dcache⟩
  · have hbl := hl.line hs.bcache
    have hb := hl.toNat_eq hs.bcache
    rw [number_bcache hs] at hbl hb
    rw [hs.bcacheLine] at hb
    exact ⟨hs.copy_of_bcache hbl, hb⟩

theorem Undisturbed.clean_eq {config : Config} (hu : Undisturbed content config h) {set way : Nat}
    {b : Word} {l : CacheLine} (hl : h.dcache.Holds set way b l ∨ h.bcache.Holds set way b l)
    (hclean : l.dirty = false) :
    l.data = (content h.port.device).bytes b.toNat h.lineBytes := by
  obtain ⟨hcopy, hb⟩ := hu.reachable.tidy.copy_of_holds hl
  rw [hb]
  exact hu.coherent hd _ _ hcopy hclean

end

theorem caches_wellFormed_and_clean (config : Config) :
    (∀ h : MemoryHierarchy π, Reachable config h → h.WellFormed) ∧
    ∀ content : π → Memory, FlatDevice content (fun _ => True) (fun _ _ => False) →
      ∀ h : MemoryHierarchy (Watched π), Undisturbed content config h → ∀ set way b l,
        h.dcache.Holds set way b l ∨ h.bcache.Holds set way b l → l.dirty = false →
          l.data = (content h.port.device).bytes b.toNat h.lineBytes := by
  refine ⟨fun h hr => hr.tidy.wellFormed, ?_⟩
  intro content hd h hu set way b l hl hclean
  exact hu.clean_eq hd hl hclean

def watchedPort : Watched MemoryPort := ⟨MemoryPort.sample, false⟩

theorem caches_wellFormed_and_clean_refused :
    (∃ (h h' : MemoryHierarchy MemoryPort) (e : BusError), Reachable sampleConfig h ∧
      (Call.evict 0).run h = .failed e h' ∧ h'.WellFormed) ∧
    ∃ (h h' : MemoryHierarchy (Watched MemoryPort)) (e : BusError) (l : CacheLine),
      Undisturbed MemoryPort.content sampleConfig h ∧
      (Call.read 0x10000 8).run h = .failed e h' ∧ h'.dcache.Holds 0 0 0 l ∧ l.dirty = false ∧
      l.data = (MemoryPort.content h'.port.device).bytes 0 8 := by
  have hvalid : sampleConfig.validate = .ok () := rfl
  constructor
  · have hstart : ofConfig sampleConfig refusingPort = .ok _ := rfl
    have hreach : Reachable sampleConfig _ := .call (.write 0 [1]) (.start hvalid hstart) rfl
    refine ⟨_, _, _, hreach, rfl, ?_⟩
    exact (caches_wellFormed_and_clean sampleConfig).1 _ (.call (.evict 0) hreach rfl)
  · have hstart : ofConfig sampleConfig watchedPort = .ok _ := rfl
    have hread : Undisturbed MemoryPort.content sampleConfig _ :=
      .call (.read 0 8) (.start hvalid hstart rfl) rfl rfl
    have hfailed : Undisturbed MemoryPort.content sampleConfig _ :=
      .call (.read 0x10000 8) hread rfl rfl
    refine ⟨_, _, _, _, hread, rfl, ⟨?_, rfl, rfl⟩, rfl, ?_⟩
    · decide
    · exact (caches_wellFormed_and_clean sampleConfig).2 _ MemoryPort.flat _ hfailed 0 0 0 _
        (.inl ⟨by decide, rfl, rfl⟩) rfl

end MemoryHierarchy

end EV6
