import EV6.Proofs.Translation.Granted
import Mathlib.Data.Set.Basic
/-!
Which physical addresses translation delivers. A frame number has one bit more than the implemented
addresses have, and translation keeps it. So what is delivered is implemented just when no entry
that lets an access through is loaded with that bit.
-/

namespace EV6

open Address

def Address.Implemented (pa : Word) : Prop := pa &&& physicalMask = pa

instance (pa : Word) : Decidable (Implemented pa) :=
  inferInstanceAs (Decidable (pa &&& physicalMask = pa))

variable {va pa : Word}

theorem Address.Translates.implemented_iff (h : Translates va pa) :
    Implemented pa ↔ pa.getLsbD 44 = false := by
  have hmask (i : Nat) (hi : i < 64) : physicalMask.getLsbD i = decide (i < 44) := by
    change (BitVec.ofNat 64 (2 ^ 44 - 1)).getLsbD i = _
    rw [BitVec.getLsbD_ofNat, Nat.testBit_two_pow_sub_one, decide_eq_true hi, Bool.true_and]
  rw [Implemented, BitVec.eq_of_getLsbD_eq_iff]
  constructor
  · intro hsame
    have hbit := hsame 44 (by decide)
    rwa [BitVec.getLsbD_and, hmask 44 (by decide), decide_eq_false (by decide), Bool.and_false,
      eq_comm] at hbit
  · intro hclear i hi
    rw [BitVec.getLsbD_and, hmask i hi]
    rcases Nat.lt_trichotomy i 44 with hlt | rfl | hgt
    · rw [decide_eq_true hlt, Bool.and_true]
    · rw [hclear, Bool.false_and]
    · rw [h.bound i hgt, Bool.false_and]

theorem Superpage.getLsbD_image (va : Word) (w : Superpage) : (w.image va).getLsbD 44 = false := by
  cases w <;> simp [image]

namespace PageEntry

variable {e : PageEntry}

theorem getLsbD_physical (e : PageEntry) (va : Word) :
    (e.physical va).getLsbD 44 = e.frame.getLsbD 31 := by
  have hshift : ¬44 < shiftOf e.granularity := by
    have := (shiftOf_bounds e.granularity).2
    omega
  have hmask : (BitVec.ofNat 64 e.pageBytes - 1).getLsbD 44 = false := by
    rw [e.getLsbD_offsetMask (by decide), decide_eq_false hshift]
  rw [physical, BitVec.getLsbD_or, BitVec.getLsbD_and, BitVec.getLsbD_and, BitVec.getLsbD_not,
    hmask, BitVec.getLsbD_shiftLeft]
  simp [pageBits]

def Usable (e : PageEntry) (access : AccessKind) : Prop :=
  e.valid = true ∧ e.faultsOn access = false ∧
    ∃ mode : ProcessorMode, (e.enables access).getLsbD mode.toNat = true

theorem Grants.usable {asn : Byte} {access : AccessKind} {mode : ProcessorMode}
    (h : e.Grants va asn access mode pa) : e.Usable access :=
  ⟨h.valid, h.clear, mode, h.enabled⟩

end PageEntry

theorem PageLoad.getLsbD_frame (l : PageLoad) : l.entry.frame.getLsbD 31 = l.pte.getLsbD 63 := by
  rw [entry, PageEntry.ofPte, BitVec.getLsbD_ushiftRight]

namespace TranslationUnit

variable {u : TranslationUnit} {access : AccessKind} {mode : ProcessorMode}
  {iprs : InternalRegisters}

theorem translates_image (hrange : InRange va) {w : Superpage} (hw : w.Covers va) :
    Translates va (w.image va) := by
  have hsome : superpage va 7 = some (w.image va) :=
    (superpage_eq_some_iff hrange).mpr ⟨w, by cases w <;> rfl, hw, rfl⟩
  exact translates_superpage hsome

theorem Grants.source (hf : u.FramesFit) (h : u.Grants va access mode iprs pa) :
    (∃ w, Maps w va access mode iprs ∧ pa = w.image va) ∨
      (∀ w, ¬Maps w va access mode iprs) ∧
        ∃ i e, (u.buffer access.stream).Holds i e ∧
          (u.buffer access.stream).lookup va (spaceOf access iprs) = some e ∧
          e.Grants va (spaceOf access iprs) access mode pa ∧ pa = e.physical va := by
  refine h.2.imp_right fun ⟨hno, i, e, hi, hfirst, hgrants⟩ => ⟨hno, i, e, hi, ?_, hgrants, ?_⟩
  · have hmatches := ((PageEntry.grants_iff (hf _ i e hi)).mp hgrants).1
    exact TranslationBuffer.lookup_eq_some_iff.mpr ⟨i, hi, hmatches, hfirst⟩
  · exact physical_of_checkAccess ((PageEntry.grants_iff (hf _ i e hi)).mp hgrants).2

theorem Grants.translates (hf : u.FramesFit) (h : u.Grants va access mode iprs pa) :
    Translates va pa := by
  rcases h.source hf with ⟨w, hw, rfl⟩ | ⟨-, i, e, hi, -, -, rfl⟩
  · exact translates_image h.1 hw.covers
  · exact PageEntry.translates_physical (hf _ i e hi) va

theorem Grants.implemented_iff (hf : u.FramesFit) (h : u.Grants va access mode iprs pa) :
    Implemented pa ↔ (∃ w, Maps w va access mode iprs) ∨
      ∀ e, (u.buffer access.stream).lookup va (spaceOf access iprs) = some e →
        e.frame.getLsbD 31 = false := by
  rw [(h.translates hf).implemented_iff]
  rcases h.source hf with ⟨w, hw, rfl⟩ | ⟨hno, i, e, -, he, -, rfl⟩
  · exact iff_of_true (w.getLsbD_image va) (.inl ⟨w, hw⟩)
  · rw [e.getLsbD_physical, he, or_iff_right fun ⟨w, hw⟩ => hno w hw]
    simp

def canonicalOf (va : Word) : Word := (va.setWidth 48).signExtend 64

theorem setWidth_canonicalOf (va : Word) : (canonicalOf va).setWidth 48 = va.setWidth 48 := by
  refine BitVec.eq_of_getLsbD_eq fun i hi => ?_
  rw [canonicalOf, BitVec.getLsbD_setWidth, BitVec.getLsbD_signExtend, if_pos hi,
    decide_eq_true hi, decide_eq_true (Nat.lt_trans hi (by decide)), Bool.true_and, Bool.true_and]

theorem isCanonical_canonicalOf (va : Word) : isCanonical (canonicalOf va) = true := by
  rw [isCanonical, setWidth_canonicalOf, beq_iff_eq, canonicalOf]

theorem lookup_canonicalOf (t : TranslationBuffer) (va : Word) (asn : Byte) :
    t.lookup (canonicalOf va) asn = t.lookup va asn := by
  simp only [TranslationBuffer.lookup, PageEntry.matchesAddress, PageEntry.tagOf,
    PageEntry.virtualBits, setWidth_canonicalOf]

def spaceRegisters (asn : Byte) : InternalRegisters :=
  { InternalRegisters.zero with itbAsn := asn, dtbAsn := asn }

theorem kernelSuperpage_spaceRegisters (va : Word) (access : AccessKind) (mode : ProcessorMode)
    (asn : Byte) : kernelSuperpage va access mode (spaceRegisters asn) = none := by
  unfold kernelSuperpage
  split
  · cases access <;>
      simp [superpage, spaceRegisters, InternalRegisters.zero, InternalRegisters.itbSuperpages,
        InternalRegisters.dtbSuperpages, AccessKind.isInstruction]
  · rfl

theorem translate_of_lookup {l : PageLoad}
    (hlookup : (u.buffer access.stream).lookup l.va l.asn = some l.entry)
    (husable : l.entry.Usable access) :
    ∃ mode, (u.translate (canonicalOf l.va) access mode (spaceRegisters l.asn)).1 =
      .ok (l.entry.physical (canonicalOf l.va)) := by
  obtain ⟨hvalid, hclear, mode, henabled⟩ := husable
  have hspace : spaceOf access (spaceRegisters l.asn) = l.asn := by
    cases access <;> rfl
  refine ⟨mode, translate_eq_ok_iff.mpr ?_⟩
  unfold resolve
  rw [isCanonical_canonicalOf, kernelSuperpage_spaceRegisters, hspace, stream_eq,
    lookup_canonicalOf, hlookup]
  exact congrArg some (PageEntry.checkAccess_eq_ok_iff.mpr ⟨henabled, hvalid, hclear, rfl⟩)

end TranslationUnit

open TranslationUnit

variable {π : Type} {start c : Core π} {past : List (TranslationMoment π)} {itb dtb : Nat}

structure Delivered (past : List (TranslationMoment π)) (c : Core π) (va : Word)
    (access : AccessKind) (mode : ProcessorMode) (iprs : InternalRegisters) (pa : Word) : Prop where
  bound : pa.toNat < 2 ^ 45
  implemented_iff : Implemented pa ↔ (∃ w, Maps w va access mode iprs) ∨
    ∀ l, Core.LoadedIn past access.stream l → l.entry.Usable access →
      (c.translation.buffer access.stream).lookup va (spaceOf access iprs) = some l.entry →
      l.pte.getLsbD 63 = false

theorem delivered (hstart : build itb dtb = .ok start.translation)
    (hrun : start.TranslationRun past c) {va : Word} {access : AccessKind} {mode : ProcessorMode}
    {iprs : InternalRegisters} {pa : Word}
    (h : (c.translation.translate va access mode iprs).1 = .ok pa) :
    Delivered past c va access mode iprs pa := by
  have hf := hrun.framesFit hstart
  have hgrants := (resolve_eq_ok_iff hf).mp (translate_eq_ok_iff.mp h)
  refine ⟨(hgrants.translates hf).toNat_lt, ?_⟩
  rw [hgrants.implemented_iff hf]
  rcases hgrants.source hf with ⟨w, hw, -⟩ | ⟨-, i, e, hi, he, hentry, -⟩
  · exact iff_of_true (.inl ⟨w, hw⟩) (.inl ⟨w, hw⟩)
  · -- The entry that is found was loaded, and its frame has the highest bit of what was loaded.
    obtain ⟨l, hl, rfl⟩ := hrun.loaded hstart hi
    refine or_congr_right ⟨fun hclear a _ _ ha => ?_, fun hclear a ha => ?_⟩
    · rw [← a.getLsbD_frame]
      exact hclear a.entry ha
    · obtain rfl : l.entry = a := Option.some.inj (he.symm.trans ha)
      rw [l.getLsbD_frame]
      exact hclear l hl hentry.usable he

theorem exists_delivered (hstart : build itb dtb = .ok start.translation) (hitb : 0 < itb)
    (hdtb : 0 < dtb) {l : PageLoad} {access : AccessKind} (husable : l.entry.Usable access) :
    ∃ c mode, start.TranslationRun [⟨start, .serve access.stream (.load l)⟩] c ∧
      (c.translation.translate (canonicalOf l.va) access mode (spaceRegisters l.asn)).1 =
        .ok (l.entry.physical (canonicalOf l.va)) := by
  have hintact : (start.translation.buffer access.stream).Intact := by
    rw [build_eq hstart]
    cases access.stream
    · exact .ofSize hitb
    · exact .ofSize hdtb
  -- The address that was loaded finds what was loaded, whatever other entries there are.
  have hcapacity := Nat.ne_of_gt (Nat.zero_lt_of_lt hintact.next)
  have hlookup := TranslationBuffer.lookup_insert hintact l
  rw [← start.translation.buffer_withBuffer_self (TranslationBuffer.insert _ _ _ _) access.stream]
    at hlookup
  obtain ⟨mode, hmode⟩ := translate_of_lookup hlookup husable
  exact ⟨_, mode, .snoc .nil (Core.stepTranslation_load hcapacity l), hmode⟩

theorem delivers_implemented_iff (hstart : build itb dtb = .ok start.translation) (hitb : 0 < itb)
    (hdtb : 0 < dtb) :
    (∀ past c va access mode iprs pa, start.TranslationRun past c →
      (c.translation.translate va access mode iprs).1 = .ok pa →
        Delivered past c va access mode iprs pa) ∧
    ∀ loads : TranslationStream → Set PageLoad,
      (∀ past c va access mode iprs pa, start.TranslationRun past c →
        (∀ s l, Core.LoadedIn past s l → l ∈ loads s) →
        (c.translation.translate va access mode iprs).1 = .ok pa → Implemented pa) ↔
      ∀ access, ∀ l ∈ loads access.stream, l.entry.Usable access → l.pte.getLsbD 63 = false := by
  refine ⟨fun past c va access mode iprs pa hrun h => delivered hstart hrun h,
    fun loads => ⟨fun hall access l hl husable => ?_, fun hclear => ?_⟩⟩
  · obtain ⟨c, mode, hrun, h⟩ := exists_delivered hstart hitb hdtb husable
    have hloaded : ∀ s a, Core.LoadedIn [⟨start, .serve access.stream (.load l)⟩] s a →
        a ∈ loads s := by
      rintro s a ⟨m, hm, hevent⟩
      obtain rfl := List.mem_singleton.mp hm
      cases hevent
      exact hl
    have himplemented := hall _ c _ access mode _ _ hrun hloaded h
    rwa [(PageEntry.translates_physical l.frame_lt _).implemented_iff, PageEntry.getLsbD_physical,
      l.getLsbD_frame] at himplemented
  · intro past c va access mode iprs pa hrun hloaded h
    refine (delivered hstart hrun h).implemented_iff.mpr (.inr fun l hl husable _ => ?_)
    exact hclear access l (hloaded access.stream l hl) husable

def highLoad : PageLoad := ⟨0x2000, 0x8000000000000101, 0⟩

theorem highLoad_unimplemented :
    ∃ start past c, Core.ofConfig oneEntryConfig MemoryPort.sample = .ok start ∧
      start.TranslationRun past c ∧ past.map (·.event) =
        [start.moveEvent .dtbTag highLoad.va,
          (start.writeRegister .dtbTag highLoad.va).moveEvent .dtbEntry highLoad.pte] ∧
      c = (start.writeIndex 0x20 highLoad.va).writeIndex 0x21 highLoad.pte ∧
      (c.translation.translate 0x2000 .read c.mode c.iprs).1 = .ok 0x100000000000 ∧
      0x100000000000 &&& physicalMask = 0 ∧
      Delivered past c 0x2000 .read c.mode c.iprs 0x100000000000 ∧ ¬Implemented 0x100000000000 := by
  have hcore : Core.ofConfig oneEntryConfig MemoryPort.sample = .ok _ := rfl
  have hrun (start : Core MemoryPort) (h : ∀ s, (start.translation.buffer s).capacity ≠ 0) :=
    (Core.TranslationRun.nil.move h (r := .dtbTag) (by decide) highLoad.va).move h
      (r := .dtbEntry) (by decide) highLoad.pte
  refine ⟨_, _, _, hcore, hrun _ (by rintro (_ | _) <;> decide), rfl, rfl, rfl, rfl, ?_, by decide⟩
  exact (delivers_implemented_iff (Core.fresh_ofConfig hcore).translation (by decide)
    (by decide)).1 _ _ _ _ _ _ _ (hrun _ (by rintro (_ | _) <;> decide)) rfl

end EV6
