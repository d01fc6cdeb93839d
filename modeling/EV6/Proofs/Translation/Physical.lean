import EV6.Proofs.Config.Valid
import EV6.Translation.Unit
import Mathlib.Algebra.Ring.Nat

namespace EV6

variable {va pa : Word}

namespace Address

structure Translates (va pa : Word) : Prop where
  offset : ∀ i < pageBits, pa.getLsbD i = va.getLsbD i
  bound : ∀ i, 45 ≤ i → pa.getLsbD i = false

theorem Translates.toNat_lt (h : Translates va pa) : pa.toNat < 2 ^ 45 :=
  Nat.lt_pow_two_of_testBit _ h.bound

theorem Translates.toNat_mod (h : Translates va pa) {n : Nat} (hn : n ∣ 2 ^ pageBits) :
    pa.toNat % n = va.toNat % n := by
  have hpage : pa.setWidth pageBits = va.setWidth pageBits := by
    refine BitVec.eq_of_getLsbD_eq fun i hi => ?_
    simp only [BitVec.getLsbD_setWidth, h.offset i hi]
  have hmod := congrArg (·.toNat % n) hpage
  simpa only [BitVec.toNat_setWidth, Nat.mod_mod_of_dvd _ hn] using hmod

theorem Translates.aligned (h : Translates va pa) {width : Width}
    (ha : isAligned va width = true) : pa.toNat % width.bytes = 0 := by
  rw [h.toNat_mod (by cases width <;> decide)]
  exact (isAligned_iff va width).mp ha

theorem Translates.reach (h : Translates va pa) (width : Width) :
    pa.toNat + width.bytes < Machine.limit := by
  have hlt := h.toNat_lt
  have hle := width.bytes_le_eight
  have hlimit : 2 ^ 45 + 8 < Machine.limit := by decide
  omega

theorem translates_and {mask : Word} (hlow : ∀ i < pageBits, mask.getLsbD i = true)
    (hhigh : ∀ i, 45 ≤ i → mask.getLsbD i = false) (va : Word) : Translates va (va &&& mask) where
  offset i hi := by rw [BitVec.getLsbD_and, hlow i hi, Bool.and_true]
  bound i hi := by rw [BitVec.getLsbD_and, hhigh i hi, Bool.and_false]

theorem Translates.or (h : Translates va pa) {high : Word}
    (hlow : ∀ i < pageBits, high.getLsbD i = false)
    (hhigh : ∀ i, 45 ≤ i → high.getLsbD i = false) : Translates va (pa ||| high) where
  offset i hi := by rw [BitVec.getLsbD_or, h.offset i hi, hlow i hi, Bool.or_false]
  bound i hi := by rw [BitVec.getLsbD_or, h.bound i hi, hhigh i hi, Bool.or_false]

theorem getLsbD_of_lt {w : Word} {n : Nat} (h : w.toNat < 2 ^ n) {i : Nat} (hi : n ≤ i) :
    w.getLsbD i = false :=
  Nat.testBit_lt_two_pow (Nat.lt_of_lt_of_le h (Nat.pow_le_pow_right (by decide) hi))

theorem translates_physicalMask (va : Word) : Translates va (va &&& physicalMask) :=
  translates_and (by decide) (fun _ hi => getLsbD_of_lt (n := 45) (by decide) hi) va

end Address

open Address

namespace PageEntry

variable {e : PageEntry}

theorem shiftOf_bounds (granularity : BitVec 2) :
    pageBits ≤ shiftOf granularity ∧ shiftOf granularity < 45 := by
  have := granularity.isLt
  unfold shiftOf pageBits
  omega

theorem lineSize_pageBytes (e : PageEntry) : LineSize e.pageBytes := by
  obtain ⟨hle, hlt⟩ := shiftOf_bounds e.granularity
  refine ⟨?_, shiftOf e.granularity, Nat.lt_trans hlt (by decide), rfl⟩
  rw [pageBytes, Nat.one_shiftLeft]
  exact Nat.pow_le_pow_right (n := 2) (by decide) (Nat.le_trans (by decide : 3 ≤ pageBits) hle)

theorem getLsbD_offsetMask (e : PageEntry) {i : Nat} (hi : i < 64) :
    (BitVec.ofNat 64 e.pageBytes - 1).getLsbD i = decide (i < shiftOf e.granularity) := by
  rw [e.lineSize_pageBytes.ofNat_sub_one, BitVec.getLsbD_ofNat, pageBytes, Nat.one_shiftLeft,
    Nat.testBit_two_pow_sub_one, decide_eq_true hi, Bool.true_and]

theorem translates_physical (h : e.frame.toNat < 2 ^ 32) (va : Word) :
    Translates va (e.physical va) := by
  obtain ⟨hle, hlt⟩ := shiftOf_bounds e.granularity
  constructor
  · intro i hi
    have hmask : i < shiftOf e.granularity := Nat.lt_of_lt_of_le hi hle
    have hi : i < 64 := by omega
    simp only [physical, BitVec.getLsbD_or, BitVec.getLsbD_and, BitVec.getLsbD_not,
      e.getLsbD_offsetMask hi, hmask, hi, decide_true, Bool.not_true, Bool.and_false, Bool.and_true,
      Bool.false_or]
  · intro i hi
    by_cases hlast : i < 64
    · have hmask : ¬i < shiftOf e.granularity := by omega
      have hframe : e.frame.getLsbD (i - pageBits) = false := by
        refine getLsbD_of_lt h ?_
        unfold pageBits
        omega
      simp only [physical, BitVec.getLsbD_or, BitVec.getLsbD_and, BitVec.getLsbD_shiftLeft, hframe,
        e.getLsbD_offsetMask hlast, hmask, decide_false, Bool.and_false, Bool.false_and,
        Bool.or_false]
    · exact BitVec.getLsbD_of_ge _ _ (by omega)

theorem frame_ofPte (va pte : Word) (asn : Byte) : (ofPte va pte asn).frame.toNat < 2 ^ 32 := by
  simp only [ofPte, BitVec.toNat_ushiftRight, Nat.shiftRight_eq_div_pow]
  have := pte.isLt
  omega

end PageEntry

namespace TranslationBuffer

variable {t : TranslationBuffer}

structure Intact (t : TranslationBuffer) : Prop where
  next : t.next < t.slots.length
  frames : ∀ e, some e ∈ t.slots → e.frame.toNat < 2 ^ 32

namespace Intact

theorem ofSize {size : Nat} (h : 0 < size) : (ofSize size).Intact := by
  refine ⟨by simpa [TranslationBuffer.ofSize] using h, fun e he => ?_⟩
  simp [TranslationBuffer.ofSize] at he

theorem recordMiss (h : t.Intact) (va : Word) : (t.recordMiss va).Intact := ⟨h.next, h.frames⟩

theorem clearMiss (h : t.Intact) : t.clearMiss.Intact := ⟨h.next, h.frames⟩

theorem insert (h : t.Intact) (va pte : Word) (asn : Byte) : (t.insert va pte asn).Intact := by
  refine ⟨?_, fun e he => ?_⟩
  · simp only [TranslationBuffer.insert, List.length_set]
    split
    · exact Nat.mod_lt _ (Nat.zero_lt_of_lt h.next)
    · exact h.next
  · rcases List.mem_or_eq_of_mem_set he with he | he
    · exact h.frames e he
    · cases he
      exact PageEntry.frame_ofPte va pte asn

theorem invalidateAll (h : t.Intact) : t.invalidateAll.Intact := ofSize (Nat.zero_lt_of_lt h.next)

theorem dropWhere (h : t.Intact) (p : PageEntry → Bool) : (t.dropWhere p).Intact := by
  refine ⟨by simpa [TranslationBuffer.dropWhere] using h.next, fun e he => ?_⟩
  obtain ⟨s, hs, hkept⟩ := List.mem_map.mp he
  rw [Option.filter_eq_some_iff] at hkept
  exact h.frames e (hkept.1 ▸ hs)

theorem lookup (h : t.Intact) {va : Word} {asn : Byte} {e : PageEntry}
    (he : t.lookup va asn = some e) : e.frame.toNat < 2 ^ 32 := by
  obtain ⟨s, hs, hse⟩ := List.mem_filterMap.mp (List.mem_of_find?_eq_some he)
  exact h.frames e (hse ▸ hs)

end Intact

end TranslationBuffer

namespace TranslationUnit

variable {u : TranslationUnit} {access : AccessKind} {mode : ProcessorMode}
  {iprs : InternalRegisters}

structure Intact (u : TranslationUnit) : Prop where
  itb : u.itb.Intact
  dtb : u.dtb.Intact

theorem build_eq {itb dtb : Nat} (h : build itb dtb = .ok u) : u = ⟨.ofSize itb, .ofSize dtb⟩ := by
  unfold build TranslationBuffer.build at h
  cases hi : Machine.reserve itb TranslationBuffer.entryFootprint with
  | error b =>
    rw [hi] at h
    cases h
  | ok _ =>
    cases hd : Machine.reserve dtb TranslationBuffer.entryFootprint with
    | error b =>
      rw [hi, hd] at h
      cases h
    | ok _ =>
      rw [hi, hd] at h
      cases h
      rfl

theorem intact_build {itb dtb : Nat} (hitb : 0 < itb) (hdtb : 0 < dtb)
    (h : build itb dtb = .ok u) : u.Intact := by
  rw [build_eq h]
  exact ⟨.ofSize hitb, .ofSize hdtb⟩

theorem Intact.translate (h : u.Intact) (va : Word) (access : AccessKind) (mode : ProcessorMode)
    (iprs : InternalRegisters) : (u.translate va access mode iprs).2.Intact := by
  unfold TranslationUnit.translate
  split
  · exact h
  · unfold recordMiss
    split
    · exact ⟨h.itb.recordMiss va, h.dtb⟩
    · exact ⟨h.itb, h.dtb.recordMiss va⟩

theorem translates_superpage {enabled : BitVec 3} (h : superpage va enabled = some pa) :
    Translates va pa := by
  unfold superpage at h
  split at h
  · cases h
    exact translates_physicalMask va
  · split at h
    · cases h
      refine (translates_and (by decide) (fun _ hi => getLsbD_of_lt (n := 45) (by decide) hi) va).or ?_ ?_
      · split <;> decide
      · split
        · exact fun _ hi => getLsbD_of_lt (n := 45) (by decide) hi
        · exact fun i _ => by simp
    · split at h
      · cases h
        exact translates_and (by decide) (fun _ hi => getLsbD_of_lt (n := 45) (by decide) hi) va
      · cases h

theorem physical_of_checkAccess {e : PageEntry}
    (h : checkAccess e va access mode = .ok pa) : pa = e.physical va := by
  unfold checkAccess at h
  split at h
  · cases h
  · split at h
    · cases h
    · cases access <;> dsimp only at h <;> split at h <;> cases h <;> rfl

theorem Intact.resolve (h : u.Intact) (hr : u.resolve va access mode iprs = some (.ok pa)) :
    Translates va pa := by
  unfold TranslationUnit.resolve at hr
  split at hr
  · cases hr
  · split at hr
    · rename_i hsuper
      cases hr
      unfold kernelSuperpage at hsuper
      split at hsuper
      · exact translates_superpage hsuper
      · cases hsuper
    · obtain ⟨e, he, hcheck⟩ := Option.map_eq_some_iff.mp hr
      rw [physical_of_checkAccess hcheck]
      refine PageEntry.translates_physical ?_ va
      unfold stream at he
      split at he
      · exact h.itb.lookup he
      · exact h.dtb.lookup he

theorem Intact.translates (h : u.Intact) (ht : (u.translate va access mode iprs).1 = .ok pa) :
    Translates va pa := by
  unfold TranslationUnit.translate at ht
  split at ht
  · rename_i answer hr
    exact h.resolve (hr.trans (congrArg some ht))
  · cases ht

end TranslationUnit

end EV6
