import EV6.Float.Vax
import EV6.Proofs.Float.Arithmetic
import EV6.Proofs.Float.Fields
import EV6.Proofs.Float.Rounded

namespace EV6

namespace VaxFormat

def fieldsOf : VaxFormat → Word → ℕ × ℕ
  | f, reg => (reg.toNat / 2 ^ 52 % 2 ^ 11, reg.toNat / 2 ^ 29 % 2 ^ 23)
  | g, reg => (reg.toNat / 2 ^ 52 % 2 ^ 11, reg.toNat % 2 ^ 52)
  | d, reg => (reg.toNat / 2 ^ 55 % 2 ^ 8, reg.toNat % 2 ^ 55)

def magnitude : VaxFormat → ℕ → ℕ → ℚ
  | f, exponent, fraction => (1 + fraction / 2 ^ 23) * 2 ^ (exponent - 1025 : ℤ)
  | g, exponent, fraction => (1 + fraction / 2 ^ 52) * 2 ^ (exponent - 1025 : ℤ)
  | d, exponent, fraction => (1 + fraction / 2 ^ 55) * 2 ^ (exponent - 129 : ℤ)

def number? (format : VaxFormat) (reg : Word) : Option ℚ :=
  let fields := format.fieldsOf reg
  if reg = 0 then some 0
  else if fields.1 = 0 then none
  else some (signed reg.msb (format.magnitude fields.1 fields.2))

def HasFields : VaxFormat → Word → Bool → ℕ → ℕ → Prop
  | f, reg, negative, exponent, fraction =>
    reg.toNat = negative.toNat * 2 ^ 63 + exponent * 2 ^ 52 + fraction * 2 ^ 29
  | g, reg, negative, exponent, fraction =>
    reg.toNat = negative.toNat * 2 ^ 63 + exponent * 2 ^ 52 + fraction
  | d, reg, negative, exponent, fraction =>
    reg.toNat = negative.toNat * 2 ^ 63 + exponent * 2 ^ 55 + fraction

def Encodes (format : VaxFormat) (reg : Word) (x : ℚ) : Prop :=
  ∃ negative exponent fraction, 0 < exponent ∧ exponent < 2 ^ format.exponentBits ∧
    fraction < 2 ^ format.fractionBits ∧ format.HasFields reg negative exponent fraction ∧
      x = signed negative (format.magnitude exponent fraction)

inductive Delivers (format : VaxFormat) (rounding : Rounding) (x : ℚ) : FloatResult → Prop
  | zero (exact : x = 0) : Delivers format rounding x ⟨0, .none⟩
  | overflow (hne : x ≠ 0) (above : 2 ^ (format.limits.emax + 1) ≤
      |rounding.toPrecision format.limits.precision x|) : Delivers format rounding x ⟨0, .ofOverflow⟩
  | underflow (hne : x ≠ 0) (below : |rounding.toPrecision format.limits.precision x| <
      2 ^ format.limits.emin) : Delivers format rounding x ⟨0, .ofUnderflow⟩
  | rounded {y : ℚ} {bits : Word} (hne : x ≠ 0)
      (rounded : y = rounding.toPrecision format.limits.precision x)
      (large : 2 ^ format.limits.emin ≤ |y|) (fits : |y| < 2 ^ (format.limits.emax + 1))
      (image : format.Encodes bits y) :
      Delivers format rounding x ⟨bits, .ofInexact (decide (y ≠ x))⟩

variable {format : VaxFormat} {reg : Word} {negative : Bool} {exponent fraction : ℕ} {x : ℚ}

theorem limits_eq (format : VaxFormat) : format.limits.precision = format.fractionBits + 1 ∧
    0 ≤ format.limits.emin + format.bias ∧
      format.limits.emax + format.bias + 1 < 2 ^ format.exponentBits ∧
        format.limits.denormals = false := by
  cases format <;> decide

theorem magnitude_eq (format : VaxFormat) (exponent fraction : ℕ) :
    format.magnitude exponent fraction = (fraction + 2 ^ format.fractionBits : ℕ) *
      2 ^ (exponent - format.bias - format.fractionBits - 1 : ℤ) := by
  cases format with
  | f =>
    rw [magnitude, hidden_bit_mul, show bias f = 1024 from rfl, show fractionBits f = 23 from rfl]
    congr 2
    push_cast
    ring
  | g =>
    rw [magnitude, hidden_bit_mul, show bias g = 1024 from rfl, show fractionBits g = 52 from rfl]
    congr 2
    push_cast
    ring
  | d =>
    rw [magnitude, hidden_bit_mul, show bias d = 128 from rfl, show fractionBits d = 55 from rfl]
    congr 2
    push_cast
    ring

theorem exponentField_eq (format : VaxFormat) (reg : Word) :
    (reg.toNat >>> (63 - format.exponentBits)) % (1 <<< format.exponentBits) =
      (format.fieldsOf reg).1 := by
  cases format <;> simp only [fieldsOf, exponentBits, Nat.shiftRight_eq_div_pow, Nat.one_shiftLeft]

theorem fractionField_eq (format : VaxFormat) (reg : Word) :
    (reg.toNat >>> format.fractionShift) % (1 <<< format.fractionBits) =
      (format.fieldsOf reg).2 := by
  cases format <;> simp only [fieldsOf, fractionShift, fractionBits, Nat.shiftRight_eq_div_pow,
    Nat.one_shiftLeft, Nat.pow_zero, Nat.div_one]

theorem exponentField_lt (format : VaxFormat) (reg : Word) :
    (format.fieldsOf reg).1 < 2 ^ format.exponentBits := by
  rw [← exponentField_eq, Nat.one_shiftLeft]
  exact Nat.mod_lt _ (Nat.two_pow_pos _)

theorem fractionField_lt (format : VaxFormat) (reg : Word) :
    (format.fieldsOf reg).2 < 2 ^ format.fractionBits := by
  rw [← fractionField_eq, Nat.one_shiftLeft]
  exact Nat.mod_lt _ (Nat.two_pow_pos _)

theorem fieldsOf_zero (format : VaxFormat) : format.fieldsOf 0 = (0, 0) := by
  cases format <;> rfl

theorem isIllegalVax_iff (format : VaxFormat) (reg : Word) :
    (FloatClass.classify format.tag reg).isIllegalVax = true ↔
      reg ≠ 0 ∧ (format.fieldsOf reg).1 = 0 := by
  have hclass : FloatClass.classify format.tag reg =
      FloatClass.ofVax reg (63 - format.exponentBits) format.exponentBits := by
    cases format <;> rfl
  rw [hclass, FloatClass.ofVax, exponentField_eq]
  by_cases hexponent : (format.fieldsOf reg).1 = 0
  · by_cases hreg : reg = 0
    · subst hreg
      rw [if_neg (not_not.mpr hexponent)]
      exact iff_of_false (by decide) (by simp)
    · rw [if_neg (not_not.mpr hexponent), if_neg hreg]
      refine iff_of_true ?_ ⟨hreg, hexponent⟩
      cases reg.msb <;> rfl
  · simp [hexponent, FloatClass.isIllegalVax]

theorem unpack_eq (h : (format.fieldsOf reg).1 ≠ 0) :
    format.unpack reg = .ok
      ⟨reg.msb, (format.fieldsOf reg).1 - format.bias - format.fractionBits - 1,
        (format.fieldsOf reg).2 + 2 ^ format.fractionBits⟩ := by
  rw [unpack, exponentField_eq, fractionField_eq, Nat.one_shiftLeft,
    if_neg fun hillegal => h ((format.isIllegalVax_iff reg).mp hillegal).2]
  exact if_neg h

theorem unpack_spec (format : VaxFormat) (reg : Word) :
    match format.number? reg with
    | none => format.unpack reg = .error .illegalOperand
    | some x => ∃ v, format.unpack reg = .ok v ∧ v.value = x ∧ v.significand < 2 ^ 56 := by
  have hillegal := format.isIllegalVax_iff reg
  rw [number?]
  by_cases hreg : reg = 0
  · subst hreg
    rw [if_pos rfl, unpack, exponentField_eq, fieldsOf_zero, if_neg fun h => (hillegal.mp h).1 rfl]
    exact ⟨_, rfl, (Exact.isZero_iff _).mp rfl, Nat.two_pow_pos 56⟩
  · by_cases hexponent : (format.fieldsOf reg).1 = 0
    · rw [if_neg hreg, if_pos hexponent, unpack, if_pos (hillegal.mpr ⟨hreg, hexponent⟩)]
    · have hfraction := format.fractionField_lt reg
      have hbits : 2 ^ format.fractionBits ≤ 2 ^ 55 := by cases format <;> decide
      rw [if_neg hreg, if_neg hexponent]
      refine ⟨_, unpack_eq hexponent, by rw [magnitude_eq, Exact.value], ?_⟩
      simp only
      omega

theorem hasFields_iff : format.HasFields reg negative exponent fraction ↔
    reg.toNat = negative.toNat * 2 ^ 63 + exponent * 2 ^ (63 - format.exponentBits) +
      fraction * 2 ^ format.fractionShift := by
  cases format <;> simp only [HasFields, exponentBits, fractionShift, Nat.pow_zero, Nat.mul_one]

theorem packed_hasFields (format : VaxFormat) (negative : Bool)
    (hexponent : exponent < 2 ^ format.exponentBits) (hfraction : fraction < 2 ^ format.fractionBits) :
    format.HasFields (((if negative then 1 <<< 63 else 0 : ℕ) : Word)
      ||| (BitVec.ofNat 64 exponent <<< (63 - format.exponentBits))
      ||| (BitVec.ofNat 64 fraction <<< format.fractionShift)) negative exponent fraction := by
  rw [hasFields_iff]
  refine MemoryFormat.toNat_image negative rfl ?_ ?_ hexponent hfraction
  · cases format <;> rfl
  · cases format <;> rfl

theorem pack_encodes {v : Exact} (hne : v.significand ≠ 0)
    (hlt : v.significand < 2 ^ format.limits.precision) (hpos : 0 < v.normalExponent + format.bias + 1)
    (hmax : v.normalExponent + format.bias + 1 < 2 ^ format.exponentBits) :
    format.Encodes (format.pack v) v.value := by
  rw [format.limits_eq.1] at hlt
  obtain ⟨hfraction, hvalue⟩ := v.fraction_spec hne hlt rfl
  obtain ⟨e, he⟩ : ∃ e : ℕ, (e : ℤ) = v.normalExponent + format.bias + 1 :=
    ⟨(v.normalExponent + format.bias + 1).toNat, by omega⟩
  refine ⟨v.negative, e, _, by omega, by zify; omega, hfraction, ?_, ?_⟩
  · rw [pack, if_neg (by simpa [Exact.isZero] using hne)]
    simp only [← he, Int.toNat_natCast]
    exact format.packed_hasFields _ (by zify; omega) hfraction
  · rw [← v.signed_abs_value, hvalue, magnitude_eq, he]
    congr 3
    ring

theorem pack_spec {v : Exact} (hlt : v.significand < 2 ^ format.limits.precision)
    (hlarge : 2 ^ format.limits.emin ≤ |v.value|)
    (hfits : |v.value| < 2 ^ (format.limits.emax + 1)) : format.Encodes (format.pack v) v.value := by
  obtain ⟨-, hemin, hmax, -⟩ := format.limits_eq
  have hne : v.significand ≠ 0 := by
    intro hs
    rw [v.abs_value, hs, Nat.cast_zero, zero_mul] at hlarge
    exact hlarge.not_gt (two_zpow_pos _)
  rw [← not_lt, Exact.abs_value_lt_iff hne, not_lt] at hlarge
  rw [Exact.abs_value_lt_iff hne] at hfits
  exact pack_encodes hne hlt (by omega) (by omega)

theorem magnitude_pos (format : VaxFormat) (exponent fraction : ℕ) :
    0 < format.magnitude exponent fraction := by
  rw [magnitude_eq]
  exact mul_pos (by positivity) (two_zpow_pos _)

theorem HasFields.fieldsOf_eq (h : format.HasFields reg negative exponent fraction)
    (hexponent : exponent < 2 ^ format.exponentBits)
    (hfraction : fraction < 2 ^ format.fractionBits) :
    format.fieldsOf reg = (exponent, fraction) ∧ reg.msb = negative := by
  have hsign : negative.toNat ≤ 1 := negative.toNat_le
  have hmsb : reg.msb = decide (negative.toNat = 1) ∧ format.fieldsOf reg = (exponent, fraction) := by
    rw [BitVec.msb_eq_decide, decide_eq_decide]
    cases format <;> simp only [HasFields, fieldsOf, exponentBits, fractionBits, Prod.mk.injEq] at * <;>
      omega
  refine ⟨hmsb.2, hmsb.1.trans ?_⟩
  cases negative <;> rfl

theorem Encodes.number?_eq (h : format.Encodes reg x) : format.number? reg = some x := by
  obtain ⟨negative, exponent, fraction, hpos, hexponent, hfraction, hfields, rfl⟩ := h
  obtain ⟨hread, hsign⟩ := hfields.fieldsOf_eq hexponent hfraction
  have hreg : reg ≠ 0 := by
    rintro rfl
    rw [fieldsOf_zero] at hread
    exact hpos.ne (congrArg Prod.fst hread)
  simp only [number?, if_neg hreg, hread, if_neg hpos.ne', hsign]

theorem encodes_two (h : format ≠ .d) : format.Encodes 0x4020000000000000 2 := by
  cases format with
  | f | g =>
    exact ⟨false, 1026, 0, by decide, by decide, by decide, rfl, by norm_num [magnitude, signed]⟩
  | d => exact absurd rfl h

theorem Encodes.toPrecision_eq (h : format.Encodes reg x) (r : Rounding) :
    r.toPrecision format.limits.precision x = x := by
  obtain ⟨negative, exponent, fraction, -, -, hfraction, -, rfl⟩ := h
  rw [magnitude_eq, format.limits_eq.1]
  exact r.toPrecision_significand negative hfraction _

theorem number?_log (h : format.number? reg = some x) (hx : x ≠ 0) :
    (format.fieldsOf reg).1 ≠ 0 ∧ Int.log 2 |x| = (format.fieldsOf reg).1 - format.bias - 1 := by
  have hfraction := format.fractionField_lt reg
  simp only [number?] at h
  split_ifs at h with hzero hexponent
  · exact absurd (Option.some.inj h).symm hx
  · obtain rfl := Option.some.inj h
    refine ⟨hexponent, ?_⟩
    rw [abs_signed _ (format.magnitude_pos _ _).le, magnitude_eq, log_significand hfraction]
    ring

theorem Encodes.unique {reg' : Word} (h : format.Encodes reg x) (h' : format.Encodes reg' x) :
    reg = reg' := by
  obtain ⟨negative, exponent, fraction, -, -, hfraction, hfields, hx⟩ := h
  obtain ⟨negative', exponent', fraction', -, -, hfraction', hfields', hx'⟩ := h'
  have hsign := signed_neg_iff negative (format.magnitude_pos exponent fraction)
  have hsign' := signed_neg_iff negative' (format.magnitude_pos exponent' fraction')
  rw [← hx] at hsign
  rw [← hx', hsign, ← Bool.eq_iff_iff] at hsign'
  subst hsign'
  have hmagnitude := signed_inj.mp (hx.symm.trans hx')
  rw [magnitude_eq, magnitude_eq] at hmagnitude
  obtain ⟨hexponent, rfl⟩ := significand_inj hfraction hfraction' hmagnitude
  obtain rfl : exponent = exponent' := by omega
  rw [hasFields_iff] at hfields hfields'
  exact BitVec.eq_of_toNat_eq (hfields.trans hfields'.symm)

theorem finish_delivers {t : Truncated} (h : t.Resolves x) (rounding : Rounding) :
    format.Delivers rounding x (format.finish t rounding) := by
  rw [finish]
  by_cases hx : x = 0
  · rw [if_pos (h.isZero_iff.mpr hx)]
    exact .zero hx
  · obtain ⟨hp, -, -, hdenormals⟩ := format.limits_eq
    obtain ⟨hr, -⟩ := Exact.round_spec format.limits h (h.significand_ne_zero hx)
      (by omega) (by cases format <;> decide) rounding
    have hrounded := format.limits.rounded_of_large (x := x) rounding
      (by simp [hdenormals])
    have htiny := hr.tiny
    rw [if_neg (by simp [hdenormals]), hrounded] at htiny
    have hoverflow := hr.overflow
    rw [hrounded] at hoverflow
    rw [if_neg (mt h.isZero_iff.mp hx)]
    generalize t.value.round t.sticky format.limits rounding = r at *
    simp only [hoverflow, htiny, decide_eq_true_eq]
    split_ifs with habove hbelow
    · exact .overflow hx habove
    · exact .underflow hx hbelow
    · have hvalue := hr.value.trans hrounded
      have himage := pack_spec hr.lt (by rw [hvalue]; exact not_lt.mp hbelow)
        (by rw [hvalue]; exact not_le.mp habove)
      rw [hvalue] at himage
      rw [hr.inexact, hrounded]
      exact .rounded hx rfl (not_lt.mp hbelow) (not_le.mp habove) himage

theorem Delivers.unique {rounding : Rounding} {r s : FloatResult}
    (hr : format.Delivers rounding x r) (hs : format.Delivers rounding x s) : r = s := by
  have hrange : (2 : ℚ) ^ format.limits.emin ≤ 2 ^ (format.limits.emax + 1) :=
    zpow_le_zpow_right₀ one_le_two (by cases format <;> decide)
  cases hr with
  | zero exact =>
    cases hs with
    | zero => rfl
    | _ hne => exact absurd exact hne
  | overflow hne above =>
    cases hs with
    | zero exact => exact absurd exact hne
    | overflow => rfl
    | underflow _ below => exact absurd (hrange.trans above) below.not_ge
    | rounded _ rounded _ fits => exact absurd above (rounded ▸ fits).not_ge
  | underflow hne below =>
    cases hs with
    | zero exact => exact absurd exact hne
    | overflow _ above => exact absurd (hrange.trans above) below.not_ge
    | underflow => rfl
    | rounded _ rounded large => exact absurd below (rounded ▸ large).not_gt
  | rounded hne rounded large fits image =>
    cases hs with
    | zero exact => exact absurd exact hne
    | overflow _ above => exact absurd above (rounded ▸ fits).not_ge
    | underflow _ below => exact absurd below (rounded ▸ large).not_gt
    | rounded _ rounded' _ _ image' =>
      obtain rfl := rounded.trans rounded'.symm
      rw [image.unique image']

end VaxFormat

def FloatArithmetic.exact : FloatArithmetic → ℚ → ℚ → ℚ
  | add, x, y => x + y
  | sub, x, y => x - y
  | mul, x, y => x * y
  | div, x, y => x / y

namespace Vax

variable {x y : ℚ}

def Computes (op : FloatArithmetic) (format : VaxFormat) (rounding : Rounding) (a b : Word)
    (answer : Except Fault FloatResult) : Prop :=
  match format.number? a, format.number? b with
  | some x, some y =>
    if op = .div ∧ y = 0 then answer = .ok ⟨0, .ofDivideByZero⟩
    else ∃ r, answer = .ok r ∧ format.Delivers rounding (op.exact x y) r
  | _, _ => answer = .error .illegalOperand

def Converts (source target : VaxFormat) (rounding : Rounding) (b : Word)
    (answer : Except Fault FloatResult) : Prop :=
  match source.number? b with
  | some x => ∃ r, answer = .ok r ∧ target.Delivers rounding x r
  | none => answer = .error .illegalOperand

theorem arithmetic_of_unpack (op : FloatArithmetic) {format : VaxFormat} (rounding : Rounding)
    {a b : Word} {v w : Exact} (ha : format.unpack a = .ok v) (hb : format.unpack b = .ok w)
    (hv : v.significand < 2 ^ 63) (hw : w.significand < 2 ^ 63) :
    if op = .div ∧ w.value = 0 then
      arithmetic op format a b rounding = .ok ⟨0, .ofDivideByZero⟩
    else ∃ r, arithmetic op format a b rounding = .ok r ∧
      format.Delivers rounding (op.exact v.value w.value) r := by
  simp only [arithmetic, ha, hb, bind, Except.bind, pure, Except.pure]
  cases op with
  | add => exact ⟨_, rfl, VaxFormat.finish_delivers (Exact.add_resolves hv hw) rounding⟩
  | sub =>
    have h := Exact.add_resolves hv (b := w.negate) hw
    rw [Exact.value_negate, ← sub_eq_add_neg] at h
    exact ⟨_, rfl, VaxFormat.finish_delivers h rounding⟩
  | mul =>
    exact ⟨_, rfl, VaxFormat.finish_delivers
      (Exact.mul_resolves (hv.trans (by norm_num)) (hw.trans (by norm_num))) rounding⟩
  | div =>
    by_cases hzero : w.value = 0
    · simp only [hzero, and_self, if_true, w.isZero_iff.mpr hzero]
    · simp only [hzero, and_false, if_false, mt w.isZero_iff.mp hzero]
      exact ⟨_, rfl, VaxFormat.finish_delivers (Exact.div_resolves hv hw) rounding⟩

theorem arithmetic_computes (op : FloatArithmetic) (format : VaxFormat) (rounding : Rounding)
    (a b : Word) : Computes op format rounding a b (arithmetic op format a b rounding) := by
  have ha := format.unpack_spec a
  have hb := format.unpack_spec b
  rw [Computes]
  cases hx : format.number? a with
  | none =>
    rw [hx] at ha
    simp only [arithmetic, ha, bind, Except.bind]
  | some x =>
    rw [hx] at ha
    obtain ⟨v, hv, rfl, hlt⟩ := ha
    cases hy : format.number? b with
    | none =>
      rw [hy] at hb
      simp only [arithmetic, hv, hb, bind, Except.bind]
    | some y =>
      rw [hy] at hb
      obtain ⟨w, hw, rfl, hlt'⟩ := hb
      exact arithmetic_of_unpack op rounding hv hw (hlt.trans (by norm_num))
        (hlt'.trans (by norm_num))

theorem convert_converts (source target : VaxFormat) (rounding : Rounding) (b : Word) :
    Converts source target rounding b (convert source target b rounding) := by
  have hb := source.unpack_spec b
  rw [Converts, convert]
  cases hnumber : source.number? b with
  | none =>
    rw [hnumber] at hb
    simp only [hb, bind, Except.bind]
  | some x =>
    rw [hnumber] at hb
    obtain ⟨v, hv, rfl, hlt⟩ := hb
    simp only [hv, bind, Except.bind, pure, Except.pure]
    exact ⟨_, rfl, VaxFormat.finish_delivers (v.resolves_value (hlt.trans (by norm_num))) rounding⟩

theorem ofQuad_delivers (format : VaxFormat) (rounding : Rounding) (b : Word) :
    format.Delivers rounding b.toInt (ofQuad format b rounding) := by
  have hvalue : (Exact.ofInt b.toInt).value = b.toInt := by
    rw [Exact.value, Exact.ofInt, zpow_zero, mul_one, signed_natCast, Int.natCast_natAbs]
    norm_cast
    rcases lt_or_ge b.toInt 0 with h | h
    · simp [signed, h, abs_of_neg h]
    · simp [signed, h.not_gt, abs_of_nonneg h]
  have hlt : (Exact.ofInt b.toInt).significand < 2 ^ 128 := by
    have := BitVec.toInt_lt (x := b)
    have := BitVec.le_toInt b
    simp only [Exact.ofInt]
    omega
  rw [← hvalue]
  exact VaxFormat.finish_delivers (Exact.resolves_value _ hlt) rounding

theorem correctly_rounded (rounding : Rounding) :
    (∀ op format a b, Computes op format rounding a b (arithmetic op format a b rounding)) ∧
    (∀ source target b,
      Converts source target rounding b (convert source target b rounding)) ∧
    ∀ format b, VaxFormat.Delivers format rounding b.toInt (ofQuad format b rounding) :=
  ⟨fun op format a b => arithmetic_computes op format rounding a b,
    fun source target b => convert_converts source target rounding b,
    fun format b => ofQuad_delivers format rounding b⟩

end Vax

end EV6
