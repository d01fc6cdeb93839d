import EV6.Proofs.Translation.Physical

namespace EV6

variable {va va' pa pa' : Word} {w : Width} {n : Nat}

namespace Address

def SameAbove (n : Nat) (va va' : Word) : Prop := ∀ i, n ≤ i → va'.getLsbD i = va.getLsbD i

namespace SameAbove

theorem symm (h : SameAbove n va va') : SameAbove n va' va := fun i hi => (h i hi).symm

theorem mono {k : Nat} (h : SameAbove n va va') (hk : n ≤ k) : SameAbove k va va' :=
  fun i hi => h i (Nat.le_trans hk hi)

theorem ushiftRight (h : SameAbove n va va') : va' >>> n = va >>> n := by
  refine BitVec.eq_of_getLsbD_eq fun i _ => ?_
  rw [BitVec.getLsbD_ushiftRight, BitVec.getLsbD_ushiftRight, h _ (Nat.le_add_right n i)]

theorem div (h : SameAbove n va va') : va'.toNat / 2 ^ n = va.toNat / 2 ^ n := by
  have htoNat := congrArg BitVec.toNat h.ushiftRight
  rwa [BitVec.toNat_ushiftRight, BitVec.toNat_ushiftRight, Nat.shiftRight_eq_div_pow,
    Nat.shiftRight_eq_div_pow] at htoNat

theorem extract (h : SameAbove n va va') {start : Nat} (hs : n ≤ start) (len : Nat) :
    va'.extractLsb' start len = va.extractLsb' start len := by
  refine BitVec.eq_of_getLsbD_eq fun i _ => ?_
  rw [BitVec.getLsbD_extractLsb', BitVec.getLsbD_extractLsb', h _ (by omega)]

theorem and (h : SameAbove n va va') (mask : Word) : SameAbove n (va &&& mask) (va' &&& mask) :=
  fun i hi => by rw [BitVec.getLsbD_and, BitVec.getLsbD_and, h i hi]

theorem or (h : SameAbove n va va') (high : Word) : SameAbove n (va ||| high) (va' ||| high) :=
  fun i hi => by rw [BitVec.getLsbD_or, BitVec.getLsbD_or, h i hi]

end SameAbove

theorem sameAbove_xor (va : Word) {k : Word} (hk : k.toNat < 2 ^ n) : SameAbove n va (va ^^^ k) :=
  fun i hi => by rw [BitVec.getLsbD_xor, getLsbD_of_lt hk hi, Bool.xor_false]

theorem sameAbove_bigEndian (va : Word) (w : Width) : SameAbove 3 va (bigEndian va w) := by
  cases w with
  | byte => exact sameAbove_xor va (k := 0x7) (by decide)
  | word => exact sameAbove_xor va (k := 0x6) (by decide)
  | long => exact sameAbove_xor va (k := 0x4) (by decide)
  | quad => exact fun _ _ => rfl

theorem sameAbove_quadAligned (va : Word) : SameAbove 3 va (quadAligned va) := by
  intro i hi
  by_cases hlast : i < 64
  · have hmask : (0x7 : Word).getLsbD i = false := getLsbD_of_lt (n := 3) (by decide) hi
    rw [quadAligned, BitVec.getLsbD_and, BitVec.getLsbD_not, hmask, decide_eq_true hlast]
    simp
  · rw [BitVec.getLsbD_of_ge _ _ (by omega), BitVec.getLsbD_of_ge _ _ (by omega)]

def lane (va : Word) (w : Width) (isBigEndian : Bool) : Word :=
  if isBigEndian then bigEndian va w else va

theorem sameAbove_lane (va : Word) (w : Width) (isBigEndian : Bool) :
    SameAbove 3 va (lane va w isBigEndian) := by
  unfold lane
  split
  · exact sameAbove_bigEndian va w
  · exact fun _ _ => rfl

theorem xor_and_of_apart {k mask : Word} (h : k &&& mask = 0) (va : Word) :
    (va ^^^ k) &&& mask = va &&& mask := by
  refine BitVec.eq_of_getLsbD_eq fun i _ => ?_
  have hbit : (k.getLsbD i && mask.getLsbD i) = false := by
    rw [← BitVec.getLsbD_and, h]
    exact BitVec.getLsbD_zero
  rw [BitVec.getLsbD_and, BitVec.getLsbD_and, BitVec.getLsbD_xor, Bool.and_xor_distrib_right, hbit,
    Bool.xor_false]

theorem isAligned_lane (va : Word) (w : Width) (isBigEndian : Bool) :
    isAligned (lane va w isBigEndian) w = isAligned va w := by
  unfold lane
  split
  · cases w with
    | byte => exact congrArg (· == 0) (xor_and_of_apart (by decide) va)
    | word => exact congrArg (· == 0) (xor_and_of_apart (by decide) va)
    | long => exact congrArg (· == 0) (xor_and_of_apart (by decide) va)
    | quad => rfl
  · rfl

theorem isAligned_quadAligned (va : Word) : isAligned (quadAligned va) .quad = true := by
  change (va &&& ~~~0x7#64 &&& 0x7#64 == 0) = true
  rw [BitVec.and_assoc, show ~~~0x7#64 &&& 0x7#64 = 0#64 from by decide, BitVec.and_zero]
  rfl

theorem mod_add_bytes_le (h : isAligned va w = true) : va.toNat % 8 + w.bytes ≤ 8 := by
  have hmod := (isAligned_iff va w).mp h
  cases w <;> simp only [Width.bytes] at hmod ⊢ <;> omega

end Address

open Address

theorem PageEntry.tagOf_congr (h : SameAbove pageBits va va') (granularity : BitVec 2) :
    tagOf va' granularity = tagOf va granularity := by
  refine BitVec.eq_of_getLsbD_eq fun i _ => ?_
  have hle := (shiftOf_bounds granularity).1
  simp only [tagOf, BitVec.getLsbD_ushiftRight, BitVec.getLsbD_setWidth]
  rw [h _ (by omega)]

theorem PageEntry.sameAbove_physical (h : SameAbove pageBits va va') (e : PageEntry) :
    SameAbove pageBits (e.physical va) (e.physical va') := by
  intro i hi
  simp only [physical, BitVec.getLsbD_or, BitVec.getLsbD_and, h i hi]

theorem TranslationBuffer.lookup_congr (h : SameAbove pageBits va va') (t : TranslationBuffer)
    (asn : Byte) : t.lookup va' asn = t.lookup va asn := by
  have hmatches : (fun e : PageEntry => e.matchesAddress va' asn) =
      fun e => e.matchesAddress va asn := by
    funext e
    rw [PageEntry.matchesAddress, PageEntry.matchesAddress, PageEntry.tagOf_congr h]
  rw [lookup, lookup, hmatches]

namespace TranslationUnit

variable {u : TranslationUnit} {access : AccessKind} {mode : ProcessorMode}
  {iprs : InternalRegisters}

theorem isCanonical_iff (va : Word) :
    isCanonical va = true ↔ ∀ i, 48 ≤ i → i < 64 → va.getLsbD i = va.getLsbD 47 := by
  have hbit (i : Nat) (hi : i < 64) : ((va.setWidth 48).signExtend 64).getLsbD i =
      if i < 48 then va.getLsbD i else va.getLsbD 47 := by
    rw [BitVec.getLsbD_signExtend, BitVec.msb_eq_getLsbD_last, BitVec.getLsbD_setWidth,
      BitVec.getLsbD_setWidth, decide_eq_true hi, Bool.true_and]
    by_cases hlow : i < 48 <;> simp [hlow]
  rw [isCanonical, beq_iff_eq, BitVec.eq_of_getLsbD_eq_iff]
  constructor
  · intro h i hle hi
    have heq := h i hi
    rw [hbit i hi, if_neg (Nat.not_lt.mpr hle)] at heq
    exact heq.symm
  · intro h i hi
    rw [hbit i hi]
    split
    · rfl
    · exact (h i (Nat.le_of_not_lt ‹_›) hi).symm

theorem isCanonical_congr (h : SameAbove pageBits va va') : isCanonical va' = isCanonical va := by
  refine Bool.eq_iff_iff.mpr ?_
  rw [isCanonical_iff, isCanonical_iff, h 47 (by decide)]
  refine forall_congr' fun i => forall_congr' fun hi => ?_
  rw [h i (Nat.le_trans (by decide) hi)]

theorem superpage_congr (h : SameAbove pageBits va va') {enabled : BitVec 3}
    (hs : superpage va enabled = some pa) :
    ∃ pa', superpage va' enabled = some pa' ∧ SameAbove pageBits pa pa' := by
  unfold superpage at hs ⊢
  rw [h.extract (by decide), h.extract (by decide), h.extract (by decide), h 40 (by decide)]
  split at hs
  · cases hs
    exact ⟨_, if_pos ‹_›, h.and _⟩
  · rw [if_neg ‹_›]
    split at hs
    · cases hs
      exact ⟨_, if_pos ‹_›, (h.and _).or _⟩
    · rw [if_neg ‹_›]
      split at hs
      · cases hs
        exact ⟨_, if_pos ‹_›, h.and _⟩
      · cases hs

theorem kernelSuperpage_congr (h : SameAbove pageBits va va')
    (hs : kernelSuperpage va access mode iprs = some pa) :
    ∃ pa', kernelSuperpage va' access mode iprs = some pa' ∧ SameAbove pageBits pa pa' := by
  unfold kernelSuperpage at hs ⊢
  split at hs
  · rw [if_pos ‹_›]
    exact superpage_congr h hs
  · cases hs

theorem checkAccess_congr {e : PageEntry} (h : checkAccess e va access mode = .ok pa) (va' : Word) :
    checkAccess e va' access mode = .ok (e.physical va') := by
  unfold checkAccess at h ⊢
  split at h
  · cases h
  · rw [if_neg ‹_›]
    split at h
    · cases h
    · rw [if_neg ‹_›]
      cases access <;> dsimp only at h ⊢ <;> split at h <;> first | exact if_neg ‹_› | cases h

theorem resolve_congr (h : SameAbove pageBits va va')
    (hr : u.resolve va access mode iprs = some (.ok pa)) :
    ∃ pa', u.resolve va' access mode iprs = some (.ok pa') ∧ SameAbove pageBits pa pa' := by
  unfold resolve at hr ⊢
  rw [isCanonical_congr h, TranslationBuffer.lookup_congr h]
  split at hr
  · cases hr
  · rw [if_neg ‹_›]
    split at hr
    · rename_i hsuper
      cases hr
      obtain ⟨pa', hpa', hsame⟩ := kernelSuperpage_congr h hsuper
      exact ⟨pa', by rw [hpa'], hsame⟩
    · rename_i hsuper
      have hnone : kernelSuperpage va' access mode iprs = none := by
        refine Option.eq_none_iff_forall_ne_some.mpr fun pa' hpa' => ?_
        obtain ⟨_, hsome, -⟩ := kernelSuperpage_congr h.symm hpa'
        rw [hsuper] at hsome
        cases hsome
      obtain ⟨e, he, hcheck⟩ := Option.map_eq_some_iff.mp hr
      rw [hnone, he, physical_of_checkAccess hcheck]
      exact ⟨_, congrArg some (checkAccess_congr hcheck va'), e.sameAbove_physical h⟩

theorem peek_eq_some_iff :
    u.peek va access mode iprs = some pa ↔ u.resolve va access mode iprs = some (.ok pa) := by
  unfold peek
  split
  · rename_i hr
    rw [hr]
    simp
  · rename_i hr
    constructor
    · exact fun h => by cases h
    · exact fun h => (hr pa h).elim

theorem Intact.peek_quadword (hu : u.Intact) (h : SameAbove 3 va va')
    (hp : u.peek va access mode iprs = some pa) :
    ∃ pa', u.peek va' access mode iprs = some pa' ∧ Translates va' pa' ∧ SameAbove 3 pa pa' := by
  have hr := peek_eq_some_iff.mp hp
  obtain ⟨pa', hr', hpage⟩ := resolve_congr (h.mono (by decide)) hr
  have htranslates := hu.resolve hr
  have htranslates' := hu.resolve hr'
  refine ⟨pa', peek_eq_some_iff.mpr hr', htranslates', fun i hi => ?_⟩
  by_cases hpageBit : i < pageBits
  · rw [htranslates.offset i hpageBit, htranslates'.offset i hpageBit, h i hi]
  · exact hpage i (Nat.le_of_not_lt hpageBit)

structure FieldAt (w : Width) (pa va' pa' : Word) : Prop where
  aligned : isAligned va' w = true
  translates : Translates va' pa'
  quad : pa'.toNat / 8 = pa.toNat / 8

namespace FieldAt

theorem place (h : FieldAt w pa va' pa') : pa'.toNat % 8 = va'.toNat % 8 :=
  h.translates.toNat_mod (by decide)

theorem fits (h : FieldAt w pa va' pa') : pa'.toNat % 8 + w.bytes ≤ 8 := by
  rw [h.place]
  exact mod_add_bytes_le h.aligned

end FieldAt

theorem Intact.peek_field (hu : u.Intact) (h : SameAbove 3 va va') (ha : isAligned va' w = true)
    (hp : u.peek va access mode iprs = some pa) :
    ∃ pa', u.peek va' access mode iprs = some pa' ∧ FieldAt w pa va' pa' := by
  obtain ⟨pa', hp', htranslates, hsame⟩ := hu.peek_quadword h hp
  exact ⟨pa', hp', ha, htranslates, hsame.div⟩

end TranslationUnit

end EV6
