import EV6.Proofs.Float.Ieee.Arithmetic
import EV6.Proofs.Float.Reals
import EV6.Proofs.Float.Root
import EV6.Proofs.Float.Vax

namespace EV6

structure RoundsOnce (image : Word → ℚ → Prop) (rounding : Rounding) (precision : ℕ) (x : ℝ)
    (r : FloatResult) : Prop where
  bits : ∃ y, image r.bits y ∧ (y : ℝ) = rounding.toPrecisionReal precision x
  inexact : r.flags.inexact = true ↔ ¬∃ bits y, image bits y ∧ (y : ℝ) = x
  silent : r.flags = .ofInexact r.flags.inexact

theorem StandsFor.roundsOnce {image : Word → ℚ → Prop} {rounding : Rounding} {kept precision : ℕ}
    {q y : ℚ} {x : ℝ} {bits : Word} (h : StandsFor kept q x) (hprecision : precision ≤ kept)
    (hx : 0 < x) (himage : image bits y) (hy : y = rounding.toPrecision precision q)
    (hfixed : ∀ bits z, image bits z → (z : ℝ) = x → rounding.toPrecision precision z = z) :
    RoundsOnce image rounding precision x ⟨bits, .ofInexact (decide (y ≠ q))⟩ := by
  have hrounded : (y : ℝ) = rounding.toPrecisionReal precision x := by
    rw [h.rounded rounding precision hprecision, hy]
  refine ⟨⟨y, himage, hrounded⟩, ?_, rfl⟩
  have hself : y = q ↔ ∃ bits z, image bits z ∧ (z : ℝ) = x := by
    rw [hy, h.exact rounding precision hprecision]
    constructor
    · intro heq
      exact ⟨bits, y, himage, hrounded.trans heq⟩
    · rintro ⟨bits', z, hz, rfl⟩
      rw [rounding.toPrecisionReal_ratCast precision (by exact_mod_cast hx.ne'),
        hfixed bits' z hz rfl]
  simp only [FloatFlags.ofInexact, decide_eq_true_eq, Ne, hself]

namespace IeeeContext

variable {ctx : IeeeContext} {format : IeeeFormat} {b : Word} {negative : Bool}

theorem finish_roundsOnce {t : Truncated} {q : ℚ} {x : ℝ} (h : t.Resolves q) (hq : 0 < q)
    (hx : 0 < x) (hstands : StandsFor 62 q x) (hlow : format.limits.emin ≤ Int.log 2 q)
    (hhigh : Int.log 2 q < format.limits.emax) :
    RoundsOnce (format.Represents · false) ctx.rounding format.limits.precision x
      (ctx.finish format t) := by
  obtain ⟨hp, -, -, -⟩ := format.limits_eq
  have hprecision : format.limits.precision ≤ 62 := by cases format <;> decide
  have habs : |q| = q := abs_of_pos hq
  have hnormal : ¬|q| < 2 ^ format.limits.emin := by rw [habs, lt_two_zpow_iff hq]; omega
  have hinside : |ctx.rounding.toPrecision format.limits.precision q| ≤ format.largest := by
    obtain ⟨-, hle⟩ := ctx.rounding.toPrecision_mem (show 0 < format.limits.precision by omega) hq
    exact (hle.trans (zpow_le_zpow_right₀ one_le_two hhigh)).trans format.two_zpow_emax_le
  have hdelivers : ctx.Delivers format q (ctx.finish format t) := finish_delivers h hq.ne'
  generalize ctx.finish format t = r at hdelivers ⊢
  cases hdelivers with
  | denormal tiny => exact absurd tiny hnormal
  | flushed tiny => exact absurd tiny hnormal
  | infinite _ above => exact absurd above hinside.not_gt
  | largest _ above => exact absurd above hinside.not_gt
  | rounded _ rounded _ image =>
    rw [decide_eq_false hq.not_gt] at image
    refine hstands.roundsOnce hprecision hx image rounded fun bits z hz heq => ?_
    have hz0 : 0 < z := by exact_mod_cast heq ▸ hx
    have hlog : Int.log 2 |z| = Int.log 2 q := by
      rw [← Rounding.log_ratCast hz0.ne', heq, hstands.log_eq, habs]
    refine hz.toPrecision_eq ?_ _
    rw [← not_lt, lt_two_zpow_iff (abs_pos.mpr hz0.ne'), hlog]
    omega

theorem exists_squareRootValue_eq (ctx : IeeeContext) (format : IeeeFormat) {u : IeeeValue}
    {x : ℚ} (h : u.Is negative x) (hx : 0 < x) :
    ∃ v : Exact, v.significand ≠ 0 ∧ v.significand < 2 ^ 53 ∧ v.value = x ∧
      ctx.squareRootValue format u = ctx.finish format v.squareRoot := by
  cases h with
  | zero => exact absurd rfl hx.ne'
  | finite v hne hlt =>
    refine ⟨v, hne, hlt, rfl, if_neg ?_⟩
    simp [IeeeValue.negative, v.negative_of_pos hx]
  | denormal v hne hlt =>
    refine ⟨v, hne, hlt, rfl, if_neg ?_⟩
    simp [IeeeValue.negative, v.negative_of_pos hx]

theorem squareRoot_roundsOnce {x : ℚ} (h : ctx.Admits format b negative x) (hx : 0 < x) :
    RoundsOnce (format.Represents · false) ctx.rounding format.limits.precision √x
      (ctx.squareRoot format b) := by
  obtain ⟨u, hu, his⟩ := operand_spec h
  obtain ⟨hlow, hhigh⟩ := h.log_mem hx.ne'
  obtain ⟨v, hne, hlt, rfl, hfinish⟩ := exists_squareRootValue_eq ctx format his hx
  obtain ⟨q, hresolves, hstands, hq, hlog⟩ :=
    v.exists_squareRoot_resolves hne (hlt.trans (by norm_num))
  have hrange : 2 * format.limits.emin ≤ format.scale ∧ 2 ≤ format.limits.emax := by
    cases format <;> decide
  have hnan : nan? (.zero false) u = none := nan?_eq_none rfl (nanBits?_eq his)
  rw [abs_of_pos hx] at hstands
  rw [squareRoot, hu]
  simp only [hnan, Option.getD_none, hfinish]
  exact finish_roundsOnce hresolves hq (Real.sqrt_pos.mpr (by exact_mod_cast hx)) hstands (by omega)
    (by omega)

end IeeeContext

namespace VaxFormat

variable {format : VaxFormat} {reg : Word} {x : ℚ}

theorem precision_mem (format : VaxFormat) :
    0 < format.limits.precision ∧ format.limits.precision ≤ 62 := by
  cases format <;> decide

def IsLoaded : VaxFormat → Word → Prop
  | f, reg => ∃ m : Longword, reg = MemoryFormat.loadF m
  | g, _ | d, _ => True

inductive DeliversReal (format : VaxFormat) (rounding : Rounding) (x : ℝ) : FloatResult → Prop
  | overflow (above : 2 ^ (format.limits.emax + 1) ≤
      |rounding.toPrecisionReal format.limits.precision x|) :
      DeliversReal format rounding x ⟨0, .ofOverflow⟩
  | underflow (below : |rounding.toPrecisionReal format.limits.precision x| <
      2 ^ format.limits.emin) : DeliversReal format rounding x ⟨0, .ofUnderflow⟩
  | rounded {r : FloatResult}
      (large : 2 ^ format.limits.emin ≤ |rounding.toPrecisionReal format.limits.precision x|)
      (fits : |rounding.toPrecisionReal format.limits.precision x| < 2 ^ (format.limits.emax + 1))
      (once : RoundsOnce format.Encodes rounding format.limits.precision x r) :
      DeliversReal format rounding x r

theorem IsLoaded.log_mem (hreg : format.IsLoaded reg) (h : format.number? reg = some x)
    (hx : x ≠ 0) : format.limits.emin ≤ Int.log 2 |x| ∧ Int.log 2 |x| ≤ format.limits.emax := by
  obtain ⟨hexponent, hlog⟩ := number?_log h hx
  rw [hlog]
  cases format with
  | f =>
    obtain ⟨m, rfl⟩ := hreg
    have hwidened : MemoryFormat.widenedF (m.toNat / 2 ^ 7 % 2 ^ 8) = 0 ∨
        897 ≤ MemoryFormat.widenedF (m.toNat / 2 ^ 7 % 2 ^ 8) ∧
          MemoryFormat.widenedF (m.toNat / 2 ^ 7 % 2 ^ 8) ≤ 1151 := by
      unfold MemoryFormat.widenedF
      split_ifs <;> omega
    simp only [fieldsOf, MemoryFormat.exponent_loadF] at hexponent ⊢
    simp only [limits, FloatLimits.f, show bias f = 1024 from rfl]
    omega
  | g =>
    simp only [fieldsOf] at hexponent ⊢
    simp only [limits, FloatLimits.g, show bias g = 1024 from rfl]
    omega
  | d =>
    simp only [fieldsOf] at hexponent ⊢
    simp only [limits, FloatLimits.d, show bias d = 128 from rfl]
    omega

theorem finish_deliversReal {t : Truncated} {q : ℚ} {x : ℝ} (h : t.Resolves q) (hq : 0 < q)
    (hx : 0 < x) (hstands : StandsFor 62 q x) (rounding : Rounding) :
    format.DeliversReal rounding x (format.finish t rounding) := by
  obtain ⟨-, hprecision⟩ := format.precision_mem
  have hrounded := hstands.rounded rounding _ hprecision
  have hdelivers : format.Delivers rounding q (format.finish t rounding) := finish_delivers h rounding
  generalize format.finish t rounding = r at hdelivers ⊢
  cases hdelivers with
  | zero exact => exact absurd exact hq.ne'
  | overflow _ above =>
    refine .overflow ?_
    rw [hrounded]
    simpa using (Rat.cast_le (K := ℝ)).mpr above
  | underflow _ below =>
    refine .underflow ?_
    rw [hrounded]
    simpa using (Rat.cast_lt (K := ℝ)).mpr below
  | @rounded y bits hne rounded large fits image =>
    have honce : RoundsOnce format.Encodes rounding format.limits.precision x _ :=
      hstands.roundsOnce hprecision hx image rounded fun _ z hz _ => hz.toPrecision_eq _
    refine .rounded ?_ ?_ honce
    · rw [hrounded, ← rounded]
      simpa using (Rat.cast_le (K := ℝ)).mpr large
    · rw [hrounded, ← rounded]
      simpa using (Rat.cast_lt (K := ℝ)).mpr fits

theorem DeliversReal.roundsOnce {q : ℚ} {x : ℝ} {rounding : Rounding} {r : FloatResult}
    (h : format.DeliversReal rounding x r) (hq : 0 < q) (hstands : StandsFor 62 q x)
    (hlow : format.limits.emin ≤ Int.log 2 q) (hhigh : Int.log 2 q < format.limits.emax) :
    RoundsOnce format.Encodes rounding format.limits.precision x r := by
  obtain ⟨hprecision, hprecision'⟩ := format.precision_mem
  obtain ⟨hmin, hmax⟩ := rounding.toPrecision_mem hprecision hq
  have habs : |rounding.toPrecisionReal format.limits.precision x| =
      (|rounding.toPrecision format.limits.precision q| : ℚ) := by
    rw [hstands.rounded rounding _ hprecision', Rat.cast_abs]
  cases h with
  | overflow above =>
    have hlt : |rounding.toPrecision format.limits.precision q| < 2 ^ (format.limits.emax + 1) :=
      hmax.trans_lt (zpow_lt_zpow_right₀ one_lt_two (by omega))
    rw [habs] at above
    refine absurd ((Rat.cast_lt (K := ℝ)).mpr hlt) (not_lt.mpr ?_)
    simpa using above
  | underflow below =>
    have hle : 2 ^ format.limits.emin ≤ |rounding.toPrecision format.limits.precision q| :=
      (zpow_le_zpow_right₀ one_le_two hlow).trans hmin
    rw [habs] at below
    refine absurd ((Rat.cast_le (K := ℝ)).mpr hle) (not_le.mpr ?_)
    simpa using below
  | rounded _ _ once => exact once

end VaxFormat

namespace Vax

variable {format : VaxFormat} {b : Word} {x : ℚ}

theorem squareRoot_deliversReal (h : format.number? b = some x) (hx : 0 < x)
    (rounding : Rounding) :
    ∃ r, squareRoot format b rounding = .ok r ∧ format.DeliversReal rounding √x r ∧
      (format.IsLoaded b → RoundsOnce format.Encodes rounding format.limits.precision √x r) := by
  have hunpack := format.unpack_spec b
  rw [h] at hunpack
  obtain ⟨v, hv, rfl, hlt⟩ := hunpack
  have hne : v.significand ≠ 0 := by
    intro hzero
    exact hx.ne' (v.isZero_iff.mp (by simp [Exact.isZero, hzero]))
  obtain ⟨q, hresolves, hstands, hq, hlog⟩ :=
    v.exists_squareRoot_resolves hne (hlt.trans (by norm_num))
  have hroot : (0 : ℝ) < √(v.value : ℚ) := Real.sqrt_pos.mpr (by exact_mod_cast hx)
  have hrange : 2 * format.limits.emin ≤ format.limits.emin ∧ 2 ≤ format.limits.emax := by
    cases format <;> decide
  have hresult : squareRoot format b rounding = .ok (format.finish v.squareRoot rounding) := by
    simp [squareRoot, hv, v.negative_of_pos hx, bind, Except.bind, pure, Except.pure]
  rw [abs_of_pos hx] at hstands
  have hdelivers : format.DeliversReal rounding √(v.value : ℚ) _ :=
    VaxFormat.finish_deliversReal hresolves hq hroot hstands rounding
  refine ⟨_, hresult, hdelivers, fun hloaded => ?_⟩
  obtain ⟨hlow, hhigh⟩ := hloaded.log_mem h hx.ne'
  exact hdelivers.roundsOnce hq hstands (by omega) (by omega)

end Vax

theorem square_roots_rounded_once :
    (∀ (ctx : IeeeContext) (format : IeeeFormat) (b : Word) (negative : Bool) (x : ℚ),
      ctx.Admits format b negative x → 0 < x →
        RoundsOnce (format.Represents · false) ctx.rounding format.limits.precision √x
          (ctx.squareRoot format b)) ∧
    ∀ (format : VaxFormat) (rounding : Rounding) (b : Word) (x : ℚ), format.number? b = some x →
      0 < x → ∃ r, Vax.squareRoot format b rounding = .ok r ∧ format.DeliversReal rounding √x r ∧
        (format.IsLoaded b → RoundsOnce format.Encodes rounding format.limits.precision √x r) :=
  ⟨fun _ _ _ _ _ h hx => IeeeContext.squareRoot_roundsOnce h hx,
    fun _ rounding _ _ h hx => Vax.squareRoot_deliversReal h hx rounding⟩

theorem downward_admits_two : IeeeContext.downward.Admits .t 0x4000000000000000 false 2 := by
  refine .normal ⟨1024, 0, by decide, by decide, rfl, ?_⟩ (.inr ?_)
  · norm_num [signed, IeeeFormat.magnitude]
  · rw [abs_two]
    exact (zpow_le_one_of_nonpos₀ one_le_two (by decide)).trans one_le_two

theorem root_of_two_rounded :
    ((IeeeContext.downward.Admits .t 0x4000000000000000 false 2 ∧ (0 : ℚ) < 2) ∧
      RoundsOnce (IeeeFormat.t.Represents · false) .minusInfinity 53 √(2 : ℚ)
        (IeeeContext.downward.squareRoot .t 0x4000000000000000)) ∧
    (VaxFormat.f.number? 0x4020000000000000 = some 2 ∧
        VaxFormat.f.IsLoaded 0x4020000000000000) ∧
      ∃ r, Vax.squareRoot .f 0x4020000000000000 .nearestAway = .ok r ∧
        VaxFormat.f.DeliversReal .nearestAway √(2 : ℚ) r ∧
          RoundsOnce VaxFormat.f.Encodes .nearestAway 24 √(2 : ℚ) r := by
  have hloaded : VaxFormat.f.IsLoaded 0x4020000000000000 := ⟨0x4100, by decide⟩
  have hencodes : VaxFormat.f.Encodes 0x4020000000000000 2 := VaxFormat.encodes_two (by decide)
  have hnumber := hencodes.number?_eq
  refine ⟨⟨⟨downward_admits_two, two_pos⟩,
    square_roots_rounded_once.1 _ _ _ _ _ downward_admits_two two_pos⟩, ⟨hnumber, hloaded⟩, ?_⟩
  obtain ⟨r, hr, hdelivers, honce⟩ :=
    square_roots_rounded_once.2 .f .nearestAway _ _ hnumber two_pos
  exact ⟨r, hr, hdelivers, honce hloaded⟩

example : IeeeContext.downward.squareRoot .t 0x4000000000000000 =
    ⟨0x3FF6A09E667F3BCC, .ofInexact true⟩ := by
  decide +kernel

theorem root_beyond_range :
    VaxFormat.f.number? 0x7FF0000000000000 = some (2 ^ (1022 : ℤ)) ∧
    Vax.squareRoot .f 0x7FF0000000000000 .nearestAway = .ok ⟨0, .ofOverflow⟩ ∧
    ¬∀ (format : VaxFormat) (rounding : Rounding) (b : Word) (x : ℚ), format.number? b = some x →
      0 < x → ∃ r, Vax.squareRoot format b rounding = .ok r ∧
        RoundsOnce format.Encodes rounding format.limits.precision √x r := by
  have hencodes : VaxFormat.f.Encodes 0x7FF0000000000000 (2 ^ (1022 : ℤ)) :=
    ⟨false, 2047, 0, by decide, by decide, by decide, rfl,
      by norm_num [VaxFormat.magnitude, signed]⟩
  have hoverflow : Vax.squareRoot .f 0x7FF0000000000000 .nearestAway = .ok ⟨0, .ofOverflow⟩ := by
    decide +kernel
  refine ⟨hencodes.number?_eq, hoverflow, fun h => ?_⟩
  obtain ⟨r, hr, honce⟩ := h .f .nearestAway _ _ hencodes.number?_eq (two_zpow_pos _)
  rw [hoverflow] at hr
  obtain rfl := Except.ok.inj hr
  exact absurd (congrArg FloatFlags.overflow honce.silent) (by decide)

end EV6
