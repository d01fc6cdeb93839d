import EV6.Float.Ieee.Operand
import EV6.Proofs.Float.Exact
import EV6.Proofs.Float.Fields

namespace EV6

namespace IeeeFormat

def HasFields : IeeeFormat → Word → Bool → ℕ → ℕ → Prop
  | s, reg, negative, exponent, fraction =>
    ∃ m : Longword, reg = MemoryFormat.loadS m ∧
      m.toNat = negative.toNat * 2 ^ 31 + exponent * 2 ^ 23 + fraction
  | t, reg, negative, exponent, fraction =>
    reg.toNat = negative.toNat * 2 ^ 63 + exponent * 2 ^ 52 + fraction

def magnitude : IeeeFormat → ℕ → ℕ → ℚ
  | s, exponent, fraction =>
    if exponent = 0 then fraction / 2 ^ 23 * 2 ^ (-126 : ℤ)
    else (1 + fraction / 2 ^ 23) * 2 ^ (exponent - 127 : ℤ)
  | t, exponent, fraction =>
    if exponent = 0 then fraction / 2 ^ 52 * 2 ^ (-1022 : ℤ)
    else (1 + fraction / 2 ^ 52) * 2 ^ (exponent - 1023 : ℤ)

def largest : IeeeFormat → ℚ
  | s => (2 - 1 / 2 ^ 23) * 2 ^ (127 : ℤ)
  | t => (2 - 1 / 2 ^ 52) * 2 ^ (1023 : ℤ)

def maxExponent (format : IeeeFormat) : ℕ := 2 ^ format.exponentBits - 1

def Represents (format : IeeeFormat) (reg : Word) (negative : Bool) (x : ℚ) : Prop :=
  ∃ exponent fraction, exponent < format.maxExponent ∧ fraction < 2 ^ format.fractionBits ∧
    format.HasFields reg negative exponent fraction ∧
      x = signed negative (format.magnitude exponent fraction)

variable {format : IeeeFormat} {reg : Word} {negative : Bool} {exponent fraction : ℕ} {x : ℚ}

/-- The position of the last fraction bit of denormals. -/
def scale (format : IeeeFormat) : ℤ := 1 - format.limits.emax - format.fractionBits

theorem limits_eq (format : IeeeFormat) :
    format.limits.precision = format.fractionBits + 1 ∧ format.limits.emin = 1 - format.limits.emax ∧
      2 * format.limits.emax + 1 = format.maxExponent ∧ format.limits.denormals = true := by
  cases format <;> decide

theorem scale_eq (format : IeeeFormat) :
    format.limits.emin - format.limits.precision + 1 = format.scale := by
  cases format <;> decide

theorem magnitude_zero (format : IeeeFormat) (fraction : ℕ) :
    format.magnitude 0 fraction = fraction * 2 ^ format.scale := by
  cases format with
  | s =>
    rw [magnitude, if_pos rfl, show scale s = -126 - 23 from rfl, zpow_sub₀ two_ne_zero]
    norm_num
    ring
  | t =>
    rw [magnitude, if_pos rfl, show scale t = -1022 - 52 from rfl, zpow_sub₀ two_ne_zero]
    ring

theorem magnitude_normal (format : IeeeFormat) (hexponent : exponent ≠ 0) :
    format.magnitude exponent fraction =
      (fraction + 2 ^ format.fractionBits : ℕ) * 2 ^ (exponent + format.scale - 1) := by
  cases format with
  | s =>
    rw [magnitude, if_neg hexponent, hidden_bit_mul, show scale s = -149 from rfl]
    congr 2
    push_cast
    ring
  | t =>
    rw [magnitude, if_neg hexponent, hidden_bit_mul, show scale t = -1074 from rfl]
    congr 2
    push_cast
    ring

theorem HasFields.unique {reg' : Word} (h : format.HasFields reg negative exponent fraction)
    (h' : format.HasFields reg' negative exponent fraction) : reg = reg' := by
  cases format with
  | s =>
    obtain ⟨m, rfl, hm⟩ := h
    obtain ⟨m', rfl, hm'⟩ := h'
    rw [BitVec.eq_of_toNat_eq (hm.trans hm'.symm)]
  | t => exact BitVec.eq_of_toNat_eq (h.trans h'.symm)

theorem HasFields.image_eq (h : format.HasFields reg negative exponent fraction) :
    format.image reg = negative.toNat * 2 ^ (format.exponentBits + format.fractionBits) +
      exponent * 2 ^ format.fractionBits + fraction := by
  cases format with
  | s =>
    obtain ⟨m, rfl, hm⟩ := h
    rw [image, MemoryFormat.storeS_loadS]
    exact hm
  | t => exact h

theorem HasFields.msb (h : format.HasFields reg negative exponent fraction)
    (hexponent : exponent ≤ format.maxExponent) (hfraction : fraction < 2 ^ format.fractionBits) :
    reg.msb = negative := by
  cases format with
  | s =>
    obtain ⟨m, rfl, hm⟩ := h
    rw [MemoryFormat.msb_loadS, BitVec.msb_eq_decide]
    simp only [maxExponent, exponentBits, fractionBits] at hexponent hfraction
    cases negative <;>
      simp only [Bool.toNat_true, Bool.toNat_false] at hm <;>
      simp only [decide_eq_true_eq, decide_eq_false_iff_not] <;> omega
  | t =>
    rw [BitVec.msb_eq_decide]
    simp only [maxExponent, exponentBits, fractionBits] at hexponent hfraction
    cases negative <;>
      simp only [HasFields, Bool.toNat_true, Bool.toNat_false] at h <;>
      simp only [decide_eq_true_eq, decide_eq_false_iff_not] <;> omega

theorem unpack_eq (h : format.HasFields reg negative exponent fraction)
    (hexponent : exponent < format.maxExponent) (hfraction : fraction < 2 ^ format.fractionBits) :
    format.unpack reg =
      if exponent = 0 then
        if fraction = 0 then .zero negative else .denormal ⟨negative, format.scale, fraction⟩
      else .finite ⟨negative, exponent + format.scale - 1, fraction + 2 ^ format.fractionBits⟩ := by
  have hlt : exponent < 2 ^ format.exponentBits := hexponent.trans_le (Nat.sub_le _ _)
  obtain ⟨hhigh, hlow⟩ := MemoryFormat.fields_of_sum h.image_eq hlt hfraction
  have hfinite : exponent ≠ 2 ^ format.exponentBits - 1 := hexponent.ne
  rw [unpack, h.msb hexponent.le hfraction]
  simp only [Nat.shiftRight_eq_div_pow, Nat.one_shiftLeft, hlow, hhigh, if_neg hfinite]
  rfl

theorem magnitude_nonneg (format : IeeeFormat) (exponent fraction : ℕ) :
    0 ≤ format.magnitude exponent fraction := by
  by_cases h : exponent = 0
  · rw [h, magnitude_zero]
    exact mul_nonneg (Nat.cast_nonneg _) (two_zpow_pos _).le
  · rw [magnitude_normal format h]
    exact mul_nonneg (Nat.cast_nonneg _) (two_zpow_pos _).le

theorem two_zpow_emin (format : IeeeFormat) :
    (2 : ℚ) ^ format.limits.emin = 2 ^ format.fractionBits * 2 ^ format.scale := by
  obtain ⟨-, hemin, -, -⟩ := format.limits_eq
  rw [← two_zpow_add_nat, scale, hemin]
  congr 1
  ring

theorem magnitude_lt_iff (hfraction : fraction < 2 ^ format.fractionBits) :
    format.magnitude exponent fraction < 2 ^ format.limits.emin ↔ exponent = 0 := by
  rw [two_zpow_emin]
  by_cases h : exponent = 0
  · rw [h, magnitude_zero, mul_lt_mul_iff_left₀ (two_zpow_pos _)]
    exact iff_of_true (by exact_mod_cast hfraction) rfl
  · refine iff_of_false (not_lt.mpr ?_) h
    rw [magnitude_normal format h]
    refine mul_le_mul (by push_cast; linarith [Nat.cast_nonneg (α := ℚ) fraction]) ?_
      (two_zpow_pos _).le (Nat.cast_nonneg _)
    exact zpow_le_zpow_right₀ one_le_two (by omega)

end IeeeFormat

inductive IeeeValue.Is : IeeeValue → Bool → ℚ → Prop
  | zero (negative : Bool) : Is (.zero negative) negative 0
  | finite (v : Exact) (hne : v.significand ≠ 0) (hlt : v.significand < 2 ^ 53) :
      Is (.finite v) v.negative v.value
  | denormal (v : Exact) (hne : v.significand ≠ 0) (hlt : v.significand < 2 ^ 53) :
      Is (.denormal v) v.negative v.value

namespace IeeeValue.Is

variable {u : IeeeValue} {m : Bool} {x : ℚ}

theorem value_eq (h : u.Is m x) : u.exact.value = x := by
  cases h with
  | zero => exact (Exact.isZero_iff _).mp rfl
  | finite v => rfl
  | denormal v => rfl

theorem of_eq_zero (h : u.Is m x) (hx : x = 0) : u = .zero m := by
  cases h with
  | zero => rfl
  | finite v hne => exact absurd hx (Exact.value_ne_zero hne)
  | denormal v hne => exact absurd hx (Exact.value_ne_zero hne)

theorem of_ne_zero (h : u.Is m x) (hx : x ≠ 0) : ∃ v, u = .finite v ∨ u = .denormal v := by
  cases h with
  | zero => exact absurd rfl hx
  | finite v => exact ⟨v, .inl rfl⟩
  | denormal v => exact ⟨v, .inr rfl⟩

theorem significand_lt (h : u.Is m x) : u.exact.significand < 2 ^ 53 := by
  cases h with
  | zero => exact Nat.two_pow_pos 53
  | finite v _ hlt => exact hlt
  | denormal v _ hlt => exact hlt

theorem negate (h : u.Is m x) : u.negate.Is (!m) (-x) := by
  cases h with
  | zero =>
    rw [neg_zero]
    exact .zero _
  | finite v hne hlt =>
    rw [← v.value_negate]
    exact .finite v.negate hne hlt
  | denormal v hne hlt =>
    rw [← v.value_negate]
    exact .denormal v.negate hne hlt

end IeeeValue.Is

namespace IeeeFormat

variable {format : IeeeFormat} {reg : Word} {negative : Bool} {exponent fraction : ℕ} {x : ℚ}

theorem unpack_spec (h : format.Represents reg negative x) : (format.unpack reg).Is negative x ∧
    ((∃ v, format.unpack reg = .denormal v) ↔ x ≠ 0 ∧ |x| < 2 ^ format.limits.emin) := by
  obtain ⟨exponent, fraction, hexponent, hfraction, hfields, rfl⟩ := h
  have hbits : 2 ^ format.fractionBits ≤ 2 ^ 52 := by cases format <;> decide
  rw [unpack_eq hfields hexponent hfraction, abs_signed _ (format.magnitude_nonneg _ _),
    magnitude_lt_iff hfraction]
  split_ifs with hzero hfrac
  · have hx : signed negative (format.magnitude exponent fraction) = 0 := by
      rw [hzero, hfrac, magnitude_zero]
      simp [signed]
    rw [hx]
    exact ⟨.zero negative, by simp⟩
  · have hx : signed negative (format.magnitude exponent fraction) =
        Exact.value ⟨negative, format.scale, fraction⟩ := by rw [hzero, magnitude_zero, Exact.value]
    rw [hx]
    refine ⟨.denormal ⟨negative, _, _⟩ hfrac (hfraction.trans (by omega)), ?_⟩
    exact iff_of_true ⟨_, rfl⟩ ⟨Exact.value_ne_zero hfrac, hzero⟩
  · have hx : signed negative (format.magnitude exponent fraction) =
        Exact.value ⟨negative, exponent + format.scale - 1, fraction + 2 ^ format.fractionBits⟩ := by
      rw [magnitude_normal format hzero, Exact.value]
    have hne : fraction + 2 ^ format.fractionBits ≠ 0 := by positivity
    rw [hx]
    refine ⟨.finite ⟨negative, _, _⟩ hne ?_, by simp [hzero]⟩
    simp only
    omega

theorem assemble_hasFields (negative : Bool) (hexponent : exponent < 2 ^ format.exponentBits)
    (hfraction : fraction < 2 ^ format.fractionBits) :
    format.HasFields (format.assemble negative exponent fraction) negative exponent fraction := by
  cases format with
  | s =>
    have h := MemoryFormat.toNat_image (n := 32) (k := 31) (j := 23) (i := 0) negative rfl rfl rfl
      hexponent hfraction
    rw [BitVec.shiftLeft_zero, Nat.pow_zero, Nat.mul_one] at h
    exact ⟨_, rfl, h⟩
  | t =>
    have h := MemoryFormat.toNat_image (n := 64) (k := 63) (j := 52) (i := 0) negative rfl rfl rfl
      hexponent hfraction
    rw [BitVec.shiftLeft_zero, Nat.pow_zero, Nat.mul_one] at h
    exact h

structure PacksTo (format : IeeeFormat) (v : Exact) (exponent fraction : ℕ) : Prop where
  exponent_lt : exponent < format.maxExponent
  fraction_lt : fraction < 2 ^ format.fractionBits
  pack_eq : format.pack v = format.assemble v.negative exponent fraction
  abs_value : |v.value| = format.magnitude exponent fraction

theorem maxExponent_pos (format : IeeeFormat) : 0 < format.maxExponent := by
  cases format <;> decide

theorem pack_zero {v : Exact} (h : v.isZero = true) : format.PacksTo v 0 0 := by
  refine ⟨format.maxExponent_pos, by positivity, by rw [pack, if_pos h], ?_⟩
  rw [v.isZero_iff.mp h, magnitude_zero]
  simp

theorem pack_denormal {v : Exact} (hne : v.significand ≠ 0)
    (hsmall : v.normalExponent < format.limits.emin)
    (hexponent : format.limits.emin - format.limits.precision + 1 ≤ v.exponent) :
    ∃ fraction, format.PacksTo v 0 fraction := by
  obtain ⟨hp, hemin, -, -⟩ := format.limits_eq
  rw [scale_eq] at hexponent
  obtain ⟨n, hn⟩ : ∃ n : ℕ, v.exponent = format.scale + n :=
    ⟨(v.exponent - format.scale).toNat, by omega⟩
  have hvalue : |v.value| = (v.significand * 2 ^ n : ℕ) * 2 ^ format.scale := by
    rw [v.abs_value, hn, two_zpow_add_nat]
    push_cast
    ring
  have hlt := (Exact.abs_value_lt_iff hne _).mpr hsmall
  rw [hvalue, two_zpow_emin, mul_lt_mul_iff_left₀ (two_zpow_pos _)] at hlt
  refine ⟨v.significand * 2 ^ n, format.maxExponent_pos, by exact_mod_cast hlt, ?_, ?_⟩
  · rw [pack, if_neg (by simpa [Exact.isZero] using hne)]
    simp only [hsmall, if_true, scale_eq, hn, add_sub_cancel_left, Int.toNat_natCast,
      Nat.shiftLeft_eq]
  · rw [hvalue, magnitude_zero]

theorem pack_normal {v : Exact} (hne : v.significand ≠ 0)
    (hlarge : format.limits.emin ≤ v.normalExponent)
    (hlt : v.significand < 2 ^ format.limits.precision)
    (hfits : |v.value| < 2 ^ (format.limits.emax + 1)) :
    ∃ exponent fraction, format.PacksTo v exponent fraction := by
  obtain ⟨hp, hemin, hmax, -⟩ := format.limits_eq
  rw [Exact.abs_value_lt_iff hne] at hfits
  rw [hp] at hlt
  obtain ⟨hfraction, hvalue⟩ := v.fraction_spec hne hlt rfl
  obtain ⟨e, he⟩ : ∃ e : ℕ, (e : ℤ) = v.normalExponent + format.limits.emax :=
    ⟨(v.normalExponent + format.limits.emax).toNat, by omega⟩
  refine ⟨e, _, by omega, hfraction, ?_, ?_⟩
  · rw [pack, if_neg (by simpa [Exact.isZero] using hne)]
    simp only [not_lt.mpr hlarge, if_false, ← he, Int.toNat_natCast, hp, Nat.add_sub_cancel,
      Nat.cast_add, Nat.cast_one, add_sub_cancel_right]
  · rw [hvalue, magnitude_normal format (by omega)]
    congr 2
    rw [he, scale]
    ring

theorem pack_spec {v : Exact} (hlt : v.significand < 2 ^ format.limits.precision)
    (hexponent : format.limits.emin - format.limits.precision + 1 ≤ v.exponent)
    (hfits : |v.value| < 2 ^ (format.limits.emax + 1)) :
    format.Represents (format.pack v) v.negative v.value := by
  have hpacks : ∃ exponent fraction, format.PacksTo v exponent fraction := by
    by_cases hzero : v.significand = 0
    · exact ⟨0, 0, pack_zero (by simp [Exact.isZero, hzero])⟩
    · rcases lt_or_ge v.normalExponent format.limits.emin with hsmall | hlarge
      · exact ⟨0, pack_denormal hzero hsmall hexponent⟩
      · exact pack_normal hzero hlarge hlt hfits
  obtain ⟨exponent, fraction, h⟩ := hpacks
  have hbits : format.maxExponent < 2 ^ format.exponentBits := Nat.sub_one_lt (by positivity)
  refine ⟨exponent, fraction, h.exponent_lt, h.fraction_lt, ?_, ?_⟩
  · rw [h.pack_eq]
    exact assemble_hasFields _ (h.exponent_lt.trans hbits) h.fraction_lt
  · rw [← h.abs_value, v.signed_abs_value]

theorem largest_eq (format : IeeeFormat) :
    format.largest =
      (2 ^ (format.fractionBits + 1) - 1) * 2 ^ (2 * format.limits.emax + format.scale - 1) := by
  cases format with
  | s =>
    rw [largest, fractionBits, show 2 * (limits s).emax + scale s - 1 = 104 from rfl,
      show (127 : ℤ) = 104 + (23 : ℕ) from rfl, two_zpow_add_nat]
    ring
  | t =>
    rw [largest, fractionBits, show 2 * (limits t).emax + scale t - 1 = 971 from rfl,
      show (1023 : ℤ) = 971 + (52 : ℕ) from rfl, two_zpow_add_nat]
    ring

theorem magnitude_le_largest (hexponent : exponent < format.maxExponent)
    (hfraction : fraction < 2 ^ format.fractionBits) :
    format.magnitude exponent fraction ≤ format.largest := by
  obtain ⟨-, -, hmax, -⟩ := format.limits_eq
  have hmax' : 1 ≤ 2 * format.limits.emax := by cases format <;> decide
  have hle : (fraction : ℚ) + 1 ≤ 2 ^ format.fractionBits := by exact_mod_cast hfraction
  rw [largest_eq, pow_succ]
  by_cases h : exponent = 0
  · rw [h, magnitude_zero]
    exact mul_le_mul (by linarith [Nat.cast_nonneg (α := ℚ) fraction])
      (zpow_le_zpow_right₀ one_le_two (by omega)) (two_zpow_pos _).le (by linarith)
  · rw [magnitude_normal format h]
    push_cast
    exact mul_le_mul (by linarith) (zpow_le_zpow_right₀ one_le_two (by omega)) (two_zpow_pos _).le
      (by linarith)

theorem Represents.abs_le (h : format.Represents reg negative x) : |x| ≤ format.largest := by
  obtain ⟨exponent, fraction, hexponent, hfraction, -, rfl⟩ := h
  rw [abs_signed _ (format.magnitude_nonneg _ _)]
  exact magnitude_le_largest hexponent hfraction

theorem largest_lt (format : IeeeFormat) : format.largest < 2 ^ (format.limits.emax + 1) := by
  have hpow : (2 : ℚ) ^ (format.limits.emax + 1) =
      2 ^ (format.fractionBits + 1) * 2 ^ (2 * format.limits.emax + format.scale - 1) := by
    rw [← two_zpow_add_nat, scale]
    congr 1
    push_cast
    ring
  rw [largest_eq, hpow]
  exact mul_lt_mul_of_pos_right (by linarith) (two_zpow_pos _)

theorem Represents.msb (h : format.Represents reg negative x) : reg.msb = negative := by
  obtain ⟨exponent, fraction, hexponent, hfraction, hfields, -⟩ := h
  exact hfields.msb hexponent.le hfraction

theorem Represents.negative_eq (h : format.Represents reg negative x) (hx : x ≠ 0) :
    negative = decide (x < 0) := by
  obtain ⟨exponent, fraction, -, -, -, rfl⟩ := h
  have hpos : 0 < format.magnitude exponent fraction := by
    refine (format.magnitude_nonneg exponent fraction).lt_of_ne fun h => hx ?_
    rw [← h]
    simp [signed]
  rw [Bool.eq_iff_iff, decide_eq_true_eq, signed_neg_iff _ hpos]

theorem magnitude_inj {exponent' fraction' : ℕ} (hfraction : fraction < 2 ^ format.fractionBits)
    (hfraction' : fraction' < 2 ^ format.fractionBits)
    (h : format.magnitude exponent fraction = format.magnitude exponent' fraction') :
    exponent = exponent' ∧ fraction = fraction' := by
  have hiff : exponent = 0 ↔ exponent' = 0 := by
    rw [← magnitude_lt_iff hfraction, h, magnitude_lt_iff hfraction']
  by_cases hzero : exponent = 0
  · have hzero' := hiff.mp hzero
    rw [hzero, hzero', magnitude_zero, magnitude_zero, mul_left_inj' (two_zpow_pos _).ne'] at h
    exact ⟨hzero.trans hzero'.symm, by exact_mod_cast h⟩
  · rw [magnitude_normal format hzero, magnitude_normal format (mt hiff.mpr hzero)] at h
    obtain ⟨hexponent, rfl⟩ := significand_inj hfraction hfraction' h
    exact ⟨by omega, rfl⟩

theorem Represents.toPrecision_eq (h : format.Represents reg negative x)
    (large : 2 ^ format.limits.emin ≤ |x|) (r : Rounding) :
    r.toPrecision format.limits.precision x = x := by
  obtain ⟨exponent, fraction, -, hfraction, -, rfl⟩ := h
  rw [abs_signed _ (format.magnitude_nonneg _ _)] at large
  have hnormal : exponent ≠ 0 := mt (magnitude_lt_iff hfraction).mpr large.not_gt
  rw [magnitude_normal format hnormal, format.limits_eq.1]
  exact r.toPrecision_significand negative hfraction _

theorem Represents.log_mem (h : format.Represents reg negative x) (hx : x ≠ 0) :
    format.scale ≤ Int.log 2 |x| ∧ Int.log 2 |x| ≤ format.limits.emax := by
  have hhigh := (lt_two_zpow_iff (abs_pos.mpr hx) _).mp (h.abs_le.trans_lt format.largest_lt)
  refine ⟨?_, by omega⟩
  obtain ⟨exponent, fraction, -, hfraction, -, rfl⟩ := h
  have hpos := abs_pos.mpr hx
  rw [abs_signed _ (format.magnitude_nonneg _ _)] at hpos ⊢
  by_cases hzero : exponent = 0
  · rw [hzero, magnitude_zero] at hpos ⊢
    have hfraction : fraction ≠ 0 := by
      rintro rfl
      simp at hpos
    have hone : (1 : ℚ) ≤ fraction := by exact_mod_cast Nat.one_le_iff_ne_zero.mpr hfraction
    exact (Int.zpow_le_iff_le_log one_lt_two hpos).mp
      (le_mul_of_one_le_left (two_zpow_pos _).le hone)
  · rw [magnitude_normal format hzero, log_significand hfraction]
    omega

theorem two_zpow_emax_le (format : IeeeFormat) : (2 : ℚ) ^ format.limits.emax ≤ format.largest := by
  cases format <;> exact le_mul_of_one_le_left (two_zpow_pos _).le (by norm_num)

theorem Represents.unique {reg' : Word} (h : format.Represents reg negative x)
    (h' : format.Represents reg' negative x) : reg = reg' := by
  obtain ⟨exponent, fraction, -, hfraction, hfields, hx⟩ := h
  obtain ⟨exponent', fraction', -, hfraction', hfields', hx'⟩ := h'
  obtain ⟨rfl, rfl⟩ := magnitude_inj hfraction hfraction' (signed_inj.mp (hx.symm.trans hx'))
  exact hfields.unique hfields'

theorem zero_represents (format : IeeeFormat) (negative : Bool) :
    format.Represents (zero negative) negative 0 := by
  refine ⟨0, 0, format.maxExponent_pos, by positivity, ?_, ?_⟩
  · cases format with
    | s =>
      refine ⟨if negative then 1 <<< 31 else 0, ?_, ?_⟩ <;> cases negative <;> decide
    | t => cases negative <;> rfl
  · rw [magnitude_zero]
    simp [signed]

theorem infinity_hasFields (format : IeeeFormat) (negative : Bool) :
    format.HasFields (infinity negative) negative format.maxExponent 0 := by
  cases format with
  | s => refine ⟨if negative then 0xFF800000 else 0x7F800000, ?_, ?_⟩ <;> cases negative <;> decide
  | t => cases negative <;> rfl

theorem maxFinite_represents (format : IeeeFormat) (negative : Bool) :
    format.Represents (format.maxFinite negative) negative (signed negative format.largest) := by
  have hpos : 0 < 2 ^ format.fractionBits := Nat.two_pow_pos _
  have hexponent : (2 * format.limits.emax).toNat < format.maxExponent := by
    cases format <;> decide
  have hbits : format.maxExponent < 2 ^ format.exponentBits := Nat.sub_one_lt (by positivity)
  refine ⟨(2 * format.limits.emax).toNat, 2 ^ format.fractionBits - 1, hexponent,
    Nat.sub_lt hpos one_pos, ?_, ?_⟩
  · rw [maxFinite, Nat.one_shiftLeft]
    exact assemble_hasFields _ (hexponent.trans hbits) (Nat.sub_lt hpos one_pos)
  · have hne : (2 * format.limits.emax).toNat ≠ 0 := by cases format <;> decide
    have hcast : (((2 * format.limits.emax).toNat : ℕ) : ℤ) = 2 * format.limits.emax :=
      Int.toNat_of_nonneg (by cases format <;> decide)
    rw [magnitude_normal format hne, hcast, largest_eq, Nat.cast_add, Nat.cast_pred hpos]
    push_cast
    congr 2
    ring

end IeeeFormat

end EV6
