import EV6.Proofs.Float.Ieee.NaN
/-!
Numbers that a format has are delivered in it exactly. Every S_floating number is a normal number of
T_floating, so that widening an image and narrowing it again gives the image back, denormals included
where they are kept.
-/

namespace EV6

def MemoryFormat.IsDenormalS (m : Longword) : Prop :=
  m.toNat / 2 ^ 23 % 2 ^ 8 = 0 ∧ m.toNat % 2 ^ 23 ≠ 0

instance (m : Longword) : Decidable (MemoryFormat.IsDenormalS m) :=
  inferInstanceAs (Decidable (_ ∧ _))

namespace NotANumber

theorem and_quietBit (bits : Word) :
    bits &&& quietBit = if bits.getLsbD 51 then quietBit else 0 := by
  rw [show quietBit = BitVec.twoPow 64 51 from by decide, BitVec.and_twoPow]
  rfl

theorem quiet_eq_self {bits : Word} (hnan : isNaN bits = true) (h : isSignaling bits = false) :
    quiet bits = bits := by
  have hne : bits &&& quietBit ≠ 0 := by simpa [isSignaling, hnan] using h
  have hset : bits &&& quietBit = quietBit := by
    rw [and_quietBit] at hne ⊢
    exact if_pos (by_contra fun hclear => hne (if_neg hclear))
  rw [quiet, ← hset]
  ext i hi
  rw [BitVec.getElem_or, BitVec.getElem_and]
  cases bits[i] <;> rfl

end NotANumber

namespace IeeeFormat

variable {format : IeeeFormat} {reg : Word} {negative : Bool} {exponent fraction : ℕ} {x : ℚ}

theorem Represents.exists_unpack (h : format.Represents reg negative x) (hx : x ≠ 0) :
    ∃ v : Exact,
      format.unpack reg = (if |x| < 2 ^ format.limits.emin then .denormal v else .finite v) ∧
      v.negative = negative ∧ v.value = x ∧ v.significand < 2 ^ format.limits.precision ∧
        format.scale ≤ v.exponent := by
  obtain ⟨exponent, fraction, hexponent, hfraction, hfields, rfl⟩ := h
  have hunpack := unpack_eq hfields hexponent hfraction
  simp only [abs_signed _ (format.magnitude_nonneg _ _), magnitude_lt_iff hfraction]
  rw [format.limits_eq.1, pow_succ]
  by_cases hzero : exponent = 0
  · subst hzero
    have hne : fraction ≠ 0 := by
      rintro rfl
      exact hx (by simp [magnitude_zero, signed])
    rw [if_pos rfl, if_neg hne] at hunpack
    refine ⟨_, hunpack.trans (if_pos rfl).symm, rfl, ?_, by simp only; omega, le_rfl⟩
    rw [magnitude_zero, Exact.value]
  · rw [if_neg hzero] at hunpack
    refine ⟨_, hunpack.trans (if_neg hzero).symm, rfl, ?_, by simp only; omega, by simp only; omega⟩
    rw [magnitude_normal format hzero, Exact.value]

theorem Represents.toGrid_eq (h : format.Represents reg negative x)
    (small : |x| < 2 ^ format.limits.emin) (r : Rounding) :
    r.toGrid (format.limits.emin - format.limits.precision + 1) x = x := by
  obtain ⟨exponent, fraction, -, hfraction, -, rfl⟩ := h
  rw [abs_signed _ (format.magnitude_nonneg _ _), magnitude_lt_iff hfraction] at small
  rw [small, magnitude_zero, scale_eq, Rounding.toGrid, signed_mul,
    mul_div_cancel_right₀ _ (two_zpow_pos _).ne', signed_natCast, Rounding.toInt_intCast]

theorem Represents.le_abs (h : format.Represents reg negative x) (hx : x ≠ 0) :
    2 ^ format.scale ≤ |x| :=
  (Int.zpow_le_iff_le_log one_lt_two (abs_pos.mpr hx)).mpr (h.log_mem hx).1

theorem Represents.widen (h : s.Represents reg negative x) :
    ∃ bits, t.Represents bits negative x := by
  by_cases hx : x = 0
  · exact ⟨_, hx ▸ t.zero_represents negative⟩
  obtain ⟨v, -, hnegative, hvalue, hlt, hexponent⟩ := h.exists_unpack hx
  have hfits : |v.value| < 2 ^ (t.limits.emax + 1) := by
    rw [hvalue]
    exact h.abs_le.trans_lt (s.largest_lt.trans (zpow_lt_zpow_right₀ one_lt_two (by decide)))
  have hscale : t.scale ≤ v.exponent := le_trans (by decide) hexponent
  have himage : t.Represents (t.pack v) v.negative v.value :=
    pack_spec (hlt.trans (by decide)) (t.scale_eq ▸ hscale) hfits
  rw [hnegative, hvalue] at himage
  exact ⟨_, himage⟩

theorem Represents.normal_t (h : s.Represents reg negative x) (hx : x ≠ 0) :
    2 ^ t.limits.emin ≤ |x| :=
  le_trans (zpow_le_zpow_right₀ one_le_two (by decide)) (h.le_abs hx)

theorem HasFields.isDenormalS_iff {m : Longword}
    (h : s.HasFields (MemoryFormat.loadS m) negative exponent fraction)
    (hexponent : exponent ≤ s.maxExponent) (hfraction : fraction < 2 ^ s.fractionBits) :
    MemoryFormat.IsDenormalS m ↔ exponent = 0 ∧ fraction ≠ 0 := by
  obtain ⟨m', hload, hm⟩ := h
  obtain rfl : m = m' := by
    rw [← MemoryFormat.storeS_loadS m, hload, MemoryFormat.storeS_loadS]
  simp only [maxExponent, exponentBits, fractionBits] at hexponent hfraction
  rw [MemoryFormat.IsDenormalS]
  omega

theorem Represents.isDenormalS_iff {m : Longword}
    (h : s.Represents (MemoryFormat.loadS m) negative x) :
    MemoryFormat.IsDenormalS m ↔ x ≠ 0 ∧ |x| < 2 ^ s.limits.emin := by
  obtain ⟨exponent, fraction, hexponent, hfraction, hfields, rfl⟩ := h
  rw [hfields.isDenormalS_iff hexponent.le hfraction, ← abs_ne_zero,
    abs_signed _ (s.magnitude_nonneg _ _), magnitude_lt_iff hfraction, and_comm]
  refine and_congr_left fun hzero => not_congr ?_
  rw [hzero, magnitude_zero, mul_eq_zero, or_iff_left (two_zpow_pos _).ne', Nat.cast_eq_zero]

end IeeeFormat

namespace IeeeContext

variable {ctx : IeeeContext} {source target : IeeeFormat} {b bits : Word} {negative : Bool} {x : ℚ}

structure KeepsDenormals (ctx : IeeeContext) : Prop where
  software : ctx.traps.software = true
  operands : ctx.control.denormalsToZero = false
  results : ctx.control.underflowToZero = false

inductive SameValue (single double : Word) : Prop
  | number {negative : Bool} {x : ℚ} (hs : IeeeFormat.s.Represents single negative x)
      (ht : IeeeFormat.t.Represents double negative x) : SameValue single double
  | infinity {negative : Bool} (hs : IeeeFormat.s.IsInfinity single negative)
      (ht : IeeeFormat.t.IsInfinity double negative) : SameValue single double

def exactFlags (ctx : IeeeContext) (format : IeeeFormat) (x : ℚ) : FloatFlags :=
  if (x ≠ 0 ∧ |x| < 2 ^ format.limits.emin) ∧ ctx.traps.underflow = true then .ofUnderflow else .none

theorem KeepsDenormals.admits (h : ctx.KeepsDenormals) (image : source.Represents b negative x) :
    ctx.Admits source b negative x := by
  rcases lt_or_ge |x| (2 ^ source.limits.emin) with small | large
  · exact .denormal image small h.software h.operands
  · exact .normal image (.inr large)

theorem delivers_image (image : target.Represents bits negative x) (hx : x ≠ 0)
    (hkept : |x| < 2 ^ target.limits.emin →
      ctx.traps.software = true ∧ ctx.control.underflowToZero = false) :
    ctx.Delivers target x ⟨bits, ctx.exactFlags target x⟩ := by
  have himage := image
  rw [image.negative_eq hx] at himage
  rcases lt_or_ge |x| (2 ^ target.limits.emin) with small | large
  · obtain ⟨hsoftware, hresults⟩ := hkept small
    have hdelivers : ctx.Delivers target x _ := .denormal small hsoftware hresults
      (image.toGrid_eq small ctx.rounding).symm himage
    convert hdelivers using 2
    cases hunderflow : ctx.traps.underflow <;>
      simp [exactFlags, hx, small, hunderflow, FloatFlags.ofUnderflow, FloatFlags.none]
  · have hdelivers : ctx.Delivers target x _ := .rounded large
      (image.toPrecision_eq large ctx.rounding).symm image.abs_le himage
    convert hdelivers using 2
    simp [exactFlags, large.not_gt, FloatFlags.ofInexact, FloatFlags.none]

theorem KeepsDenormals.convert_eq (h : ctx.KeepsDenormals) (hs : source.Represents b negative x)
    (ht : target.Represents bits negative x) :
    ctx.convert source target b = ⟨bits, ctx.exactFlags target x⟩ := by
  obtain ⟨v, hv, his⟩ := operand_spec (h.admits hs)
  by_cases hx : x = 0
  · subst hx
    have hbits := (target.zero_represents negative).unique ht
    rw [convert, hv, his.of_eq_zero rfl, exactFlags, if_neg (by simp), ← hbits]
    rfl
  · exact (convert_delivers hv his hx).unique
      (delivers_image ht hx fun _ => ⟨h.software, h.results⟩)

theorem convert_infinity (target : IeeeFormat) (h : source.IsInfinity b negative) :
    ctx.convert source target b = infinite negative := by
  rw [convert, operand_infinity h]

theorem convert_quiet (target : IeeeFormat) (hb : source.IsImage b)
    (hnan : NotANumber.isNaN b = true) (hquiet : NotANumber.isSignaling b = false) :
    ctx.convert source target b = ⟨b, .none⟩ := by
  rw [convert, operand_of_isNaN hb hnan]
  simp [NotANumber.quiet_eq_self hnan hquiet, hquiet]

structure RoundTrips (wide narrow : IeeeContext) (m : Longword) : Prop where
  silent : (wide.sToT (MemoryFormat.loadS m)).flags = .none
  value : NotANumber.isNaN (MemoryFormat.loadS m) = false →
    SameValue (MemoryFormat.loadS m) (wide.sToT (MemoryFormat.loadS m)).bits
  narrowed : narrow.tToS (wide.sToT (MemoryFormat.loadS m)).bits = ⟨MemoryFormat.loadS m,
    if MemoryFormat.IsDenormalS m ∧ narrow.traps.underflow = true then .ofUnderflow else .none⟩

section RoundTrips

variable {wide narrow : IeeeContext} {m : Longword}

theorem number_round_trips (hwide : wide.KeepsDenormals) (hnarrow : narrow.KeepsDenormals)
    (h : IeeeFormat.s.Represents (MemoryFormat.loadS m) negative x) : RoundTrips wide narrow m := by
  obtain ⟨bits, ht⟩ := h.widen
  have hflags : wide.exactFlags .t x = .none := if_neg fun hsmall =>
    hsmall.1.2.not_ge (h.normal_t hsmall.1.1)
  have hwiden : wide.sToT (MemoryFormat.loadS m) = ⟨bits, .none⟩ := by
    rw [sToT, hwide.convert_eq h ht, hflags]
  refine ⟨by rw [hwiden], fun _ => by rw [hwiden]; exact .number h ht, ?_⟩
  rw [hwiden, tToS, hnarrow.convert_eq ht h, exactFlags]
  simp only [h.isDenormalS_iff]

theorem infinity_round_trips (h : IeeeFormat.s.IsInfinity (MemoryFormat.loadS m) negative)
    (hnormal : ¬MemoryFormat.IsDenormalS m) : RoundTrips wide narrow m := by
  have ht := IeeeFormat.t.infinity_hasFields negative
  have hload := h.unique (IeeeFormat.s.infinity_hasFields negative)
  have hwiden : wide.sToT (MemoryFormat.loadS m) = infinite negative := convert_infinity .t h
  refine ⟨by rw [hwiden]; rfl, fun _ => by rw [hwiden]; exact .infinity h ht, ?_⟩
  rw [hwiden, tToS, infinite, convert_infinity .s ht, if_neg fun h => hnormal h.1, hload, infinite]

theorem quiet_nan_round_trips (hnan : NotANumber.isNaN (MemoryFormat.loadS m) = true)
    (hquiet : NotANumber.isSignaling (MemoryFormat.loadS m) = false)
    (hnormal : ¬MemoryFormat.IsDenormalS m) : RoundTrips wide narrow m := by
  have hwiden : wide.sToT (MemoryFormat.loadS m) = ⟨MemoryFormat.loadS m, .none⟩ :=
    convert_quiet .t ⟨m, rfl⟩ hnan hquiet
  refine ⟨by rw [hwiden], fun h => by simp [hnan] at h, ?_⟩
  rw [hwiden, tToS, convert_quiet .s (IeeeFormat.isImage_t _) hnan hquiet,
    if_neg fun h => hnormal h.1]

theorem widened_and_narrowed (hwide : wide.KeepsDenormals) (hnarrow : narrow.KeepsDenormals)
    (hquiet : NotANumber.isSignaling (MemoryFormat.loadS m) = false) : RoundTrips wide narrow m := by
  have himage : IeeeFormat.s.IsImage (MemoryFormat.loadS m) := ⟨m, rfl⟩
  obtain ⟨negative, exponent, fraction, hexponent, hfraction, hfields⟩ := himage.exists_fields
  rcases hexponent.lt_or_eq with hlt | rfl
  · exact number_round_trips hwide hnarrow ⟨exponent, fraction, hlt, hfraction, hfields, rfl⟩
  have hnormal : ¬MemoryFormat.IsDenormalS m := by
    rw [hfields.isDenormalS_iff le_rfl hfraction]
    exact fun h => IeeeFormat.s.maxExponent_pos.ne' h.1
  by_cases hzero : fraction = 0
  · subst hzero
    exact infinity_round_trips hfields hnormal
  · have hnan := (hfields.isNaN_iff le_rfl hfraction).mpr ⟨rfl, hzero⟩
    exact quiet_nan_round_trips hnan hquiet hnormal

end RoundTrips

def upward : IeeeContext := ⟨.plusInfinity, ⟨true, true, false⟩, .reset⟩

theorem downward_keepsDenormals : downward.KeepsDenormals := ⟨rfl, by decide, by decide⟩

theorem upward_keepsDenormals : upward.KeepsDenormals := ⟨rfl, by decide, by decide⟩

theorem least_denormal_round_trips :
    (downward.KeepsDenormals ∧ upward.KeepsDenormals ∧
      NotANumber.isSignaling (MemoryFormat.loadS 1) = false) ∧
    RoundTrips downward upward 1 ∧
      upward.tToS (downward.sToT (MemoryFormat.loadS 1)).bits =
        ⟨MemoryFormat.loadS 1, .ofUnderflow⟩ := by
  have hquiet : NotANumber.isSignaling (MemoryFormat.loadS 1) = false := by decide
  have htrip : RoundTrips downward upward 1 :=
    widened_and_narrowed downward_keepsDenormals upward_keepsDenormals hquiet
  exact ⟨⟨downward_keepsDenormals, upward_keepsDenormals, hquiet⟩, htrip, htrip.narrowed⟩

end IeeeContext

end EV6
