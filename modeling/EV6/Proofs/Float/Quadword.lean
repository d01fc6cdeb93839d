import EV6.Float.Bounded
import EV6.Proofs.Float.Ieee.Images
import EV6.Proofs.Float.Vax

namespace EV6

theorem Rounding.toGrid_zero (r : Rounding) (x : ℚ) : r.toGrid 0 x = r.toInt x := by
  rw [toGrid, zpow_zero, div_one, mul_one]

structure RoundedInteger.IsOf (q : RoundedInteger) (rounding : Rounding) (x : ℚ) : Prop where
  bits : q.bits = BitVec.ofInt 64 (rounding.toInt x)
  overflow : q.overflow = true ↔ ¬(-2 ^ 63 ≤ rounding.toInt x ∧ rounding.toInt x ≤ 2 ^ 63 - 1)
  inexact : q.inexact = true ↔ ¬∃ k : ℤ, x = k

inductive DeliversQuad (rounding : Rounding) (x : ℚ) : FloatResult → Prop
  | rounded {q : RoundedInteger} (of : q.IsOf rounding x) :
      DeliversQuad rounding x ⟨q.bits, { FloatFlags.none with
        integerOverflow := q.overflow
        inexact := q.inexact }⟩

namespace Exact

structure KeepsMagnitude (q : Kept × Bool) (rounding : Rounding) (a : Exact) (n : ℕ) : Prop where
  rounded : rounding.toInt a.value = signed a.negative (n : ℤ)
  low : q.1.significand % 2 ^ 64 = n % 2 ^ 64
  wide : q.2 = true → 2 ^ 127 ≤ n
  narrow : q.2 = false → q.1.significand = n
  inexact : q.1.inexact = true ↔ ¬∃ k : ℤ, a.value = k

variable {a : Exact} {rounding : Rounding}

theorem topBit_mem {n k : ℕ} (h : n ≠ 0) (hlt : n < 2 ^ k) : 0 ≤ topBit n ∧ topBit n < k := by
  have hlog := (Nat.log2_lt h).mpr hlt
  rw [topBit, if_neg h]
  omega

theorem value_of_nonneg (h : 0 ≤ a.exponent) :
    a.value = ((signed a.negative (a.significand * 2 ^ a.exponent.toNat : ℕ) : ℤ) : ℚ) := by
  obtain ⟨e, he⟩ := Int.eq_ofNat_of_zero_le h
  rw [value, he, zpow_natCast, Int.toNat_natCast, ← signed_natCast]
  push_cast
  rfl

theorem integerMagnitude_of_nonneg (hs : a.significand ≠ 0) (hlt : a.significand < 2 ^ 128)
    (h : 0 ≤ a.exponent) : KeepsMagnitude (a.integerMagnitude rounding) rounding a
      (a.significand * 2 ^ a.exponent.toNat) := by
  have hvalue := value_of_nonneg h
  obtain ⟨e, he⟩ := Int.eq_ofNat_of_zero_le h
  have htop := topBit_mem hs hlt
  have hwide := a.abs_value_lt_iff hs 127
  rw [a.abs_value, he, zpow_natCast] at hwide
  rw [he, Int.toNat_natCast] at hvalue ⊢
  have hwide' : a.significand * 2 ^ e < 2 ^ 127 ↔ a.normalExponent < 127 := by exact_mod_cast hwide
  have hkept : a.integerMagnitude rounding =
      (⟨if 128 ≤ e then 0 else a.significand * 2 ^ e % 2 ^ 128, false⟩,
        decide (127 ≤ a.normalExponent)) := by
    simp only [integerMagnitude, he, Int.natCast_nonneg, if_true, Int.toNat_natCast,
      Nat.shiftLeft_eq, significandBound_eq]
    norm_cast
  rw [hkept]
  refine ⟨by rw [hvalue, Rounding.toInt_intCast], ?_, ?_, ?_, ?_⟩
  · simp only
    split_ifs with hbig
    · obtain ⟨k, rfl⟩ := Nat.exists_eq_add_of_le (show 64 ≤ e by omega)
      rw [pow_add, mul_left_comm, Nat.mul_mod_right, Nat.zero_mod]
    · rw [Nat.mod_mod_of_dvd _ (by norm_num)]
  · simp only [decide_eq_true_eq]
    omega
  · simp only [decide_eq_false_iff_not]
    intro hnarrow
    rw [normalExponent] at hnarrow hwide'
    rw [if_neg (by omega), Nat.mod_eq_of_lt (by omega)]
  · exact iff_of_false Bool.false_ne_true fun hinexact => hinexact ⟨_, hvalue⟩

theorem integerMagnitude_of_neg (hlt : a.significand < 2 ^ 128) (h : a.exponent < 0) :
    KeepsMagnitude (a.integerMagnitude rounding) rounding a
      (a.integerMagnitude rounding).1.significand := by
  have hkept := roundAt_spec a.encloses_abs_value hlt (.inl h) rounding a.negative
  rw [integerMagnitude, if_neg h.not_ge]
  have hvalue := hkept.value
  have hinexact := hkept.inexact
  rw [a.signed_abs_value, Rounding.toGrid_zero] at hvalue hinexact
  rw [zpow_zero, mul_one, signed_natCast] at hvalue
  refine ⟨by exact_mod_cast hvalue.symm, rfl, by simp, by simp, ?_⟩
  rw [hinexact, decide_eq_true_eq, Ne, rounding.toInt_eq_iff]

theorem exists_keepsMagnitude (hs : a.significand ≠ 0) (hlt : a.significand < 2 ^ 128)
    (rounding : Rounding) : ∃ n, KeepsMagnitude (a.integerMagnitude rounding) rounding a n := by
  rcases le_or_gt 0 a.exponent with h | h
  · exact ⟨_, integerMagnitude_of_nonneg hs hlt h⟩
  · exact ⟨_, integerMagnitude_of_neg hlt h⟩

theorem ofInt_signed (negative : Bool) {kept n : ℕ} (h : kept % 2 ^ 64 = n % 2 ^ 64) :
    (if negative then -BitVec.ofNat 64 kept else BitVec.ofNat 64 kept) =
      BitVec.ofInt 64 (signed negative (n : ℤ)) := by
  have hlow : BitVec.ofNat 64 kept = BitVec.ofInt 64 n := by
    rw [BitVec.ofInt_natCast]
    exact BitVec.eq_of_toNat_eq h
  cases negative with
  | false => exact hlow
  | true => rw [if_pos rfl, hlow, signed, if_pos rfl, BitVec.ofInt_neg]

theorem toInteger_spec (hlt : a.significand < 2 ^ 128) (rounding : Rounding) :
    (a.toInteger rounding).IsOf rounding a.value := by
  rw [toInteger]
  by_cases hzero : a.isZero = true
  · have hvalue : a.value = (0 : ℤ) := by exact_mod_cast a.isZero_iff.mp hzero
    rw [if_pos hzero, hvalue]
    refine ⟨?_, ?_, iff_of_false Bool.false_ne_true fun h => h ⟨_, rfl⟩⟩ <;>
      rw [Rounding.toInt_intCast]
    · rfl
    · decide
  · obtain ⟨n, h⟩ := exists_keepsMagnitude (by simpa [isZero] using hzero) hlt rounding
    have hrounded := h.rounded
    have hwide := h.wide
    have hnarrow := h.narrow
    rw [if_neg hzero]
    refine ⟨(ofInt_signed a.negative h.low).trans (by rw [hrounded]), ?_, h.inexact⟩
    simp only [hrounded, Bool.or_eq_true, decide_eq_true_eq]
    generalize a.integerMagnitude rounding = q at hwide hnarrow ⊢
    cases hsign : a.negative <;> cases hq : q.2 <;>
      simp only [signed, magnitudeLimit, hq, forall_const, IsEmpty.forall_iff, Bool.false_eq_true,
        if_true, if_false, false_or, true_or, true_iff] at hwide hnarrow ⊢ <;> omega

theorem roundAt_le (hlt : a.significand < 2 ^ 128) (h : a.exponent < 0) (rounding : Rounding) :
    (roundAt a.significand a.exponent false 0 rounding a.negative).significand ≤ a.significand := by
  have hle : |a.value| ≤ a.significand * 2 ^ (0 : ℤ) := by
    rw [a.abs_value]
    exact mul_le_mul_of_nonneg_left (zpow_le_zpow_right₀ one_le_two h.le) (Nat.cast_nonneg _)
  exact (roundAt_spec a.encloses_abs_value hlt (.inl h) rounding a.negative).significand_le
    (abs_nonneg _) hle

namespace Bounded

theorem toInteger_eq_ok (hlt : a.significand < 2 ^ 64)
    (hexponent : a.significand ≠ 0 → -2 ^ 30 ≤ a.normalExponent ∧ a.normalExponent ≤ 2 ^ 30)
    (rounding : Rounding) : toInteger a rounding = .ok (a.toInteger rounding) := by
  by_cases hzero : a.significand = 0
  · simp [toInteger, isZero, hzero, pure, Except.pure]
  have htop := topBit_mem hzero hlt
  have hbounds := hexponent hzero
  rw [Exact.normalExponent] at hbounds
  rcases le_or_gt 0 a.exponent with h | h
  · have hfit : normalExponent a = .ok (a.exponent + topBit a.significand) :=
      Exponent.fit_eq_ok_iff.mpr ⟨rfl, by omega, by omega⟩
    simp [toInteger, isZero, hzero, h, hfit, bind, Except.bind, pure, Except.pure]
  · have hle := roundAt_le (hlt.trans (by norm_num)) h rounding
    have hkept : roundAt a.significand a.exponent false 0 rounding a.negative =
        .ok (Exact.roundAt a.significand a.exponent false 0 rounding a.negative) :=
      roundAt_eq_ok (by omega) (by omega) (by rw [significandBound_eq]; omega)
    simp [toInteger, isZero, hzero, h.not_ge, hkept, bind, Except.bind, pure, Except.pure]

end Bounded

end Exact

namespace IeeeContext

variable {ctx : IeeeContext} {b : Word} {m : Bool} {x : ℚ}

theorem toQuad_of_is {u : IeeeValue} (hu : ctx.operand .t b = .ok u) (his : u.Is m x) :
    DeliversQuad ctx.rounding x (ctx.toQuad b) := by
  have hspec := Exact.toInteger_spec (his.significand_lt.trans (by norm_num)) ctx.rounding
  rw [his.value_eq] at hspec
  rw [toQuad, hu]
  cases his <;> exact .rounded hspec

theorem toQuad_delivers (h : ctx.Admits .t b m x) : DeliversQuad ctx.rounding x (ctx.toQuad b) := by
  obtain ⟨u, hu, his⟩ := operand_spec h
  exact toQuad_of_is hu his

theorem toQuad_invalid (h : NotANumber.isNaN b = true ∨
    (∃ m, IeeeFormat.t.IsInfinity b m) ∨ ctx.Rejects .t b) :
    ctx.toQuad b = ⟨0, .ofInvalid⟩ := by
  rcases h with hnan | ⟨m, himage⟩ | hrejects
  · rw [toQuad, operand_of_isNaN (IeeeFormat.isImage_t b) hnan]
  · rw [toQuad, operand_infinity himage]
  · rw [toQuad, hrejects.operand_eq]
    rfl

theorem bounded_toInteger {u : IeeeValue} (hu : ctx.operand .t b = .ok u) (rounding : Rounding) :
    Exact.Bounded.toInteger u.exact rounding = .ok (u.exact.toInteger rounding) := by
  have htakes := takes_of_operand (IeeeFormat.isImage_t b) hu
  cases htakes with
  | @number m x u admits is =>
    refine Exact.Bounded.toInteger_eq_ok (is.significand_lt.trans (by norm_num)) ?_ _
    intro hs
    have hvalue := is.value_eq
    have hlog := Exact.log_abs_value hs
    have hmem := admits.log_mem (hvalue ▸ Exact.value_ne_zero hs)
    rw [hvalue] at hlog
    rw [hlog, show IeeeFormat.t.scale = -1074 from rfl,
      show IeeeFormat.t.limits.emax = 1023 from rfl] at hmem
    omega
  | infinity => rfl
  | notANumber => rfl

end IeeeContext

namespace Vax

variable {b : Word} {x : ℚ}

theorem toQuad_delivers (h : VaxFormat.g.number? b = some x) (rounding : Rounding) :
    ∃ v, VaxFormat.g.unpack b = .ok v ∧
      Exact.Bounded.toInteger v rounding = .ok (v.toInteger rounding) ∧
        ∃ r, toQuad b rounding = .ok r ∧ DeliversQuad rounding x r := by
  have hunpack := VaxFormat.g.unpack_spec b
  rw [h] at hunpack
  obtain ⟨v, hv, rfl, hlt⟩ := hunpack
  refine ⟨v, hv, Exact.Bounded.toInteger_eq_ok (hlt.trans (by norm_num)) ?_ rounding, _, ?_,
    .rounded (Exact.toInteger_spec (hlt.trans (by norm_num)) rounding)⟩
  · intro hs
    have hlog := Exact.log_abs_value hs
    rw [(VaxFormat.number?_log h (Exact.value_ne_zero hs)).2] at hlog
    have hfield : (VaxFormat.g.fieldsOf b).1 < 2 ^ 11 := VaxFormat.g.exponentField_lt b
    rw [← hlog, show VaxFormat.g.bias = 1024 from rfl]
    omega
  · rw [toQuad, hv]
    rfl

end Vax

theorem quadwords_rounded_once :
    (∀ (ctx : IeeeContext) (b : Word),
      (∀ m x, ctx.Admits .t b m x → DeliversQuad ctx.rounding x (ctx.toQuad b)) ∧
      (∀ u, ctx.operand .t b = .ok u →
        Exact.Bounded.toInteger u.exact ctx.rounding = .ok (u.exact.toInteger ctx.rounding)) ∧
      (NotANumber.isNaN b = true ∨ (∃ m, IeeeFormat.t.IsInfinity b m) ∨
        ctx.Rejects .t b → ctx.toQuad b = ⟨0, .ofInvalid⟩)) ∧
    ∀ (rounding : Rounding) (b : Word) (x : ℚ), VaxFormat.g.number? b = some x →
      ∃ v, VaxFormat.g.unpack b = .ok v ∧
        Exact.Bounded.toInteger v rounding = .ok (v.toInteger rounding) ∧
          ∃ r, Vax.toQuad b rounding = .ok r ∧ DeliversQuad rounding x r :=
  ⟨fun _ _ => ⟨fun _ _ h => IeeeContext.toQuad_delivers h,
    fun _ hu => IeeeContext.bounded_toInteger hu _, IeeeContext.toQuad_invalid⟩,
    fun rounding _ _ h => Vax.toQuad_delivers h rounding⟩

theorem least_denormal_to_quadword :
    (IeeeContext.downward.Admits .t 0x8000000000000001 true (-2 ^ (-1074 : ℤ)) ∧
      DeliversQuad .minusInfinity (-2 ^ (-1074 : ℤ))
        (IeeeContext.downward.toQuad 0x8000000000000001)) ∧
    (IeeeContext.downward.operand .t 0x3FF0000000000000 = .ok (.finite ⟨false, -52, 2 ^ 52⟩) ∧
      Exact.Bounded.toInteger ⟨false, -52, 2 ^ 52⟩ .minusInfinity =
        .ok (Exact.toInteger ⟨false, -52, 2 ^ 52⟩ .minusInfinity)) ∧
    (NotANumber.isNaN NotANumber.canonical = true ∧
      IeeeContext.downward.toQuad NotANumber.canonical = ⟨0, .ofInvalid⟩) ∧
    VaxFormat.g.number? 0x4020000000000000 = some 2 ∧
      ∃ v, VaxFormat.g.unpack 0x4020000000000000 = .ok v ∧
        Exact.Bounded.toInteger v .chopped = .ok (v.toInteger .chopped) ∧
          ∃ r, Vax.toQuad 0x4020000000000000 .chopped = .ok r ∧ DeliversQuad .chopped 2 r := by
  have hread : IeeeContext.downward.operand .t 0x3FF0000000000000 =
      .ok (.finite ⟨false, -52, 2 ^ 52⟩) := by decide
  have hnan : NotANumber.isNaN NotANumber.canonical = true := by decide
  have htwo : VaxFormat.g.Encodes 0x4020000000000000 2 := VaxFormat.encodes_two (by decide)
  have hieee := quadwords_rounded_once.1 IeeeContext.downward
  exact ⟨⟨IeeeContext.downward_admits_least, (hieee _).1 _ _ IeeeContext.downward_admits_least⟩,
    ⟨hread, (hieee _).2.1 _ hread⟩, ⟨hnan, (hieee _).2.2 (.inl hnan)⟩, htwo.number?_eq,
    quadwords_rounded_once.2 _ _ _ htwo.number?_eq⟩

example : IeeeContext.downward.toQuad 0x8000000000000001 =
    ⟨0xFFFFFFFFFFFFFFFF, .ofInexact true⟩ := by
  decide +kernel

end EV6
