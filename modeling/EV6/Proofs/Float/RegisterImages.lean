import EV6.Proofs.Float.Ieee.Widening
import EV6.Proofs.Float.Vax

namespace EV6

namespace IeeeFormat

structure GivesBack (format : IeeeFormat) (reg : Word) (negative : Bool) (x : ℚ) (v : Exact) :
    Prop where
  unpacked : format.unpack reg = if |x| < 2 ^ format.limits.emin then .denormal v else .finite v
  sign : v.negative = negative
  value : v.value = x
  packed : format.pack v = reg
  finished (ctx : IeeeContext) (kept : |x| < 2 ^ format.limits.emin →
      ctx.traps.software = true ∧ ctx.control.underflowToZero = false) :
    ctx.finish format ⟨v, false⟩ = ⟨reg, ctx.exactFlags format x⟩
  lossless (ctx : IeeeContext) : (ctx.exactFlags format x).overflow = false ∧
    (ctx.exactFlags format x).inexact = false

variable {format : IeeeFormat} {reg : Word} {negative : Bool} {x : ℚ}

theorem Represents.pack_eq {v : Exact} (h : format.Represents reg v.negative v.value)
    (hlt : v.significand < 2 ^ format.limits.precision) (hexponent : format.scale ≤ v.exponent) :
    format.pack v = reg := by
  have hfits : |v.value| < 2 ^ (format.limits.emax + 1) := h.abs_le.trans_lt format.largest_lt
  exact (pack_spec hlt (format.scale_eq ▸ hexponent) hfits).unique h

theorem Represents.finish_eq {ctx : IeeeContext} {v : Exact}
    (h : format.Represents reg negative v.value) (hne : v.value ≠ 0) (hlt : v.significand < 2 ^ 128)
    (hkept : |v.value| < 2 ^ format.limits.emin →
      ctx.traps.software = true ∧ ctx.control.underflowToZero = false) :
    ctx.finish format ⟨v, false⟩ = ⟨reg, ctx.exactFlags format v.value⟩ :=
  (IeeeContext.finish_delivers (v.resolves_value hlt) hne).unique
    (IeeeContext.delivers_image h hne hkept)

theorem Represents.exists_givesBack (h : format.Represents reg negative x) (hx : x ≠ 0) :
    ∃ v, format.GivesBack reg negative x v := by
  obtain ⟨v, hunpack, rfl, rfl, hlt, hexponent⟩ := h.exists_unpack hx
  have hbits : 2 ^ format.limits.precision ≤ 2 ^ 128 := by cases format <;> decide
  refine ⟨v, hunpack, rfl, rfl, h.pack_eq hlt hexponent,
    fun ctx => h.finish_eq hx (hlt.trans_le hbits), fun ctx => ?_⟩
  rw [IeeeContext.exactFlags]
  split_ifs <;> exact ⟨rfl, rfl⟩

end IeeeFormat

namespace VaxFormat

/-- The image of a nonzero number is read as the exact value `v`, which gives the image back. Images
of F_floating have the exponent field of G_floating; they are rounded to themselves where the exponent
is one of F_floating. -/
structure GivesBack (format : VaxFormat) (reg : Word) (x : ℚ) (v : Exact) : Prop where
  unpacked : format.unpack reg = .ok v
  sign : v.negative = reg.msb
  value : v.value = x
  packed : format.pack v = reg
  finished (rounding : Rounding)
      (range : format = .f → 897 ≤ (format.fieldsOf reg).1 ∧ (format.fieldsOf reg).1 ≤ 1151) :
    format.finish ⟨v, false⟩ rounding = ⟨reg, .none⟩

variable {format : VaxFormat} {reg : Word} {x : ℚ}

theorem fieldsOf_hasFields (hlow : reg.toNat % 2 ^ format.fractionShift = 0) :
    format.HasFields reg reg.msb (format.fieldsOf reg).1 (format.fieldsOf reg).2 := by
  have hlt := reg.isLt
  have hsign : reg.msb.toNat = reg.toNat / 2 ^ 63 := by
    rw [BitVec.msb_eq_decide]
    by_cases hle : 2 ^ (64 - 1) ≤ reg.toNat
    · rw [decide_eq_true hle, Bool.toNat_true]
      omega
    · rw [decide_eq_false hle, Bool.toNat_false]
      omega
  cases format <;> simp only [HasFields, fieldsOf, fractionShift] at hlow ⊢ <;> omega

theorem encodes_of_number? (h : format.number? reg = some x) (hx : x ≠ 0)
    (hlow : reg.toNat % 2 ^ format.fractionShift = 0) : format.Encodes reg x := by
  have hexponent := (number?_log h hx).1
  refine ⟨reg.msb, _, _, Nat.pos_of_ne_zero hexponent, format.exponentField_lt reg,
    format.fractionField_lt reg, fieldsOf_hasFields hlow, ?_⟩
  simp only [number?, if_neg hexponent] at h
  split_ifs at h with hzero
  · exact absurd (Option.some.inj h).symm hx
  · exact (Option.some.inj h).symm

theorem field_mem (h : format.number? reg = some x) (hx : x ≠ 0)
    (hrange : format = .f → 897 ≤ (format.fieldsOf reg).1 ∧ (format.fieldsOf reg).1 ≤ 1151) :
    format.limits.emin ≤ Int.log 2 |x| ∧ Int.log 2 |x| ≤ format.limits.emax := by
  obtain ⟨hne, hlog⟩ := number?_log h hx
  have hlt := format.exponentField_lt reg
  rw [hlog]
  cases format with
  | f =>
    have hfield := hrange rfl
    simp only [limits, FloatLimits.f, bias, exponentBits] at hlt hne ⊢
    omega
  | g =>
    simp only [limits, FloatLimits.g, bias, exponentBits] at hlt hne ⊢
    omega
  | d =>
    simp only [limits, FloatLimits.d, bias, exponentBits] at hlt hne ⊢
    omega

theorem Encodes.pack_eq {v : Exact} (h : format.Encodes reg v.value) (hne : v.significand ≠ 0)
    (hlt : v.significand < 2 ^ format.limits.precision) : format.pack v = reg := by
  obtain ⟨hfield, hlog⟩ := number?_log h.number?_eq (Exact.value_ne_zero hne)
  have hmax := format.exponentField_lt reg
  rw [Exact.log_abs_value hne] at hlog
  zify at hmax
  exact (pack_encodes hne hlt (by omega) (by omega)).unique h

theorem Encodes.finish_eq {v : Exact} (h : format.Encodes reg v.value) (hne : v.value ≠ 0)
    (hlt : v.significand < 2 ^ 128) (rounding : Rounding)
    (hrange : format.limits.emin ≤ Int.log 2 |v.value| ∧ Int.log 2 |v.value| ≤ format.limits.emax) :
    format.finish ⟨v, false⟩ rounding = ⟨reg, .none⟩ := by
  have hpos : 0 < |v.value| := abs_pos.mpr hne
  have hlarge : 2 ^ format.limits.emin ≤ |v.value| :=
    (Int.zpow_le_iff_le_log one_lt_two hpos).mpr hrange.1
  have hfits : |v.value| < 2 ^ (format.limits.emax + 1) :=
    (lt_two_zpow_iff hpos _).mpr (Int.lt_add_one_of_le hrange.2)
  have hdelivers : format.Delivers rounding v.value _ :=
    .rounded hne (h.toPrecision_eq rounding).symm hlarge hfits h
  rw [(finish_delivers (v.resolves_value hlt) rounding).unique hdelivers,
    decide_eq_false (not_not.mpr rfl)]
  rfl

theorem exists_givesBack (h : format.number? reg = some x) (hx : x ≠ 0)
    (hlow : reg.toNat % 2 ^ format.fractionShift = 0) : ∃ v, format.GivesBack reg x v := by
  have hencodes := encodes_of_number? h hx hlow
  have hexponent := (number?_log h hx).1
  have hfraction := format.fractionField_lt reg
  have hbits : 2 ^ format.limits.precision ≤ 2 ^ 128 := by cases format <;> decide
  obtain ⟨v, hv, rfl, -⟩ : ∃ v, format.unpack reg = .ok v ∧ v.value = x ∧ v.significand < 2 ^ 56 := by
    simpa [h] using format.unpack_spec reg
  obtain rfl := Except.ok.inj (hv.symm.trans (unpack_eq hexponent))
  have hlt : (format.fieldsOf reg).2 + 2 ^ format.fractionBits < 2 ^ format.limits.precision := by
    rw [format.limits_eq.1, pow_succ]
    omega
  refine ⟨_, hv, rfl, rfl, hencodes.pack_eq (by positivity) hlt, fun rounding hrange => ?_⟩
  exact hencodes.finish_eq hx (hlt.trans_le hbits) rounding (field_mem h hx hrange)

end VaxFormat

theorem images_given_back :
    (∀ (format : IeeeFormat) (reg : Word) (negative : Bool) (x : ℚ),
      format.Represents reg negative x → x ≠ 0 → ∃ v, format.GivesBack reg negative x v) ∧
    ∀ (format : VaxFormat) (reg : Word) (x : ℚ), format.number? reg = some x → x ≠ 0 →
      (format = .f → reg.toNat % 2 ^ 29 = 0) → ∃ v, format.GivesBack reg x v := by
  refine ⟨fun _ _ _ _ h hx => h.exists_givesBack hx, fun format _ _ h hx hlow => ?_⟩
  refine VaxFormat.exists_givesBack h hx ?_
  cases format with
  | f => exact hlow rfl
  | g | d => exact Nat.mod_one _

theorem least_images_given_back :
    (IeeeFormat.t.Represents 0x8000000000000001 true (-2 ^ (-1074 : ℤ)) ∧
      VaxFormat.f.number? 0x3810000000000000 = some (2 ^ (-128 : ℤ)) ∧
        (0x3810000000000000 : Word).toNat % 2 ^ 29 = 0) ∧
    (∃ v, IeeeFormat.t.GivesBack 0x8000000000000001 true (-2 ^ (-1074 : ℤ)) v ∧
      (IeeeContext.downward.finish .t ⟨v, false⟩).bits = 0x8000000000000001) ∧
    ∃ v, VaxFormat.f.GivesBack 0x3810000000000000 (2 ^ (-128 : ℤ)) v ∧
      VaxFormat.f.finish ⟨v, false⟩ .chopped = ⟨0x3810000000000000, .none⟩ := by
  have ht : IeeeFormat.t.Represents 0x8000000000000001 true (-2 ^ (-1074 : ℤ)) := by
    refine ⟨0, 1, by decide, by decide, rfl, ?_⟩
    rw [IeeeFormat.magnitude_zero, show IeeeFormat.t.scale = -1074 from rfl]
    simp [signed]
  have hf : VaxFormat.f.Encodes 0x3810000000000000 (2 ^ (-128 : ℤ)) :=
    ⟨false, 897, 0, by decide, by decide, by decide, rfl, by norm_num [VaxFormat.magnitude, signed]⟩
  obtain ⟨v, hv⟩ := images_given_back.1 _ _ _ _ ht (neg_ne_zero.mpr (two_zpow_pos _).ne')
  obtain ⟨w, hw⟩ := images_given_back.2 _ _ _ hf.number?_eq (two_zpow_pos _).ne' fun _ => by decide
  refine ⟨⟨ht, hf.number?_eq, by decide⟩, ⟨v, hv, ?_⟩, w, hw, hw.finished .chopped fun _ => by decide⟩
  rw [hv.finished IeeeContext.downward fun _ => by decide]

end EV6
