import EV6.Float.Ieee.Conversion
import EV6.Proofs.Float.Ieee.Arithmetic

namespace EV6

namespace NotANumber

theorem toNat_and_exponentMask (bits : Word) :
    (bits &&& exponentMask).toNat = bits.toNat / 2 ^ 52 % 2 ^ 11 * 2 ^ 52 := by
  rw [BitVec.toNat_and, show exponentMask.toNat = (2 ^ 11 - 1) <<< 52 from rfl]
  rw [← Nat.shiftLeft_eq, ← Nat.shiftRight_eq_div_pow]
  refine Nat.eq_of_testBit_eq fun i => ?_
  rw [Nat.testBit_and, Nat.testBit_shiftLeft, Nat.testBit_shiftLeft, Nat.testBit_two_pow_sub_one,
    Nat.testBit_mod_two_pow, Nat.testBit_shiftRight]
  by_cases hi : 52 ≤ i
  · rw [Nat.add_sub_of_le hi]
    simp only [hi, decide_true, Bool.true_and, Bool.and_comm]
  · simp [hi]

theorem toNat_and_fractionMask (bits : Word) :
    (bits &&& fractionMask).toNat = bits.toNat % 2 ^ 52 := by
  rw [BitVec.toNat_and, show fractionMask.toNat = 2 ^ 52 - 1 from rfl,
    Nat.and_two_pow_sub_one_eq_mod]

theorem isNaN_iff (bits : Word) :
    isNaN bits = true ↔ bits.toNat / 2 ^ 52 % 2 ^ 11 = 2047 ∧ bits.toNat % 2 ^ 52 ≠ 0 := by
  rw [isNaN, Bool.and_eq_true, beq_iff_eq, bne_iff_ne, ← BitVec.toNat_inj, Ne, ← BitVec.toNat_inj,
    toNat_and_exponentMask, toNat_and_fractionMask, show exponentMask.toNat = 2047 * 2 ^ 52 from rfl]
  refine and_congr_left' ?_
  omega

theorem isNaN_quiet {bits : Word} (h : isNaN bits = true) : isNaN (quiet bits) = true := by
  have hexponent : quiet bits &&& exponentMask = bits &&& exponentMask := by
    rw [quiet, BitVec.and_or_distrib_right, show quietBit &&& exponentMask = 0#64 from by decide,
      BitVec.or_zero]
  have hfraction : quiet bits &&& fractionMask ≠ 0 := by
    intro hzero
    have hquiet : quiet bits &&& fractionMask &&& quietBit = quietBit := by
      rw [BitVec.and_assoc, show fractionMask &&& quietBit = quietBit from by decide,
        quiet_and_quietBit]
    rw [hzero] at hquiet
    exact absurd hquiet (by decide)
  rw [isNaN, Bool.and_eq_true] at h ⊢
  exact ⟨hexponent ▸ h.1, bne_iff_ne.mpr hfraction⟩

theorem isNaN_of_isSignaling {bits : Word} (h : isSignaling bits = true) : isNaN bits = true := by
  rw [isSignaling, Bool.and_eq_true] at h
  exact h.1

end NotANumber

namespace IeeeFormat

def IsInfinity (format : IeeeFormat) (reg : Word) (negative : Bool) : Prop :=
  format.HasFields reg negative format.maxExponent 0

def IsImage : IeeeFormat → Word → Prop
  | s, reg => ∃ m : Longword, reg = MemoryFormat.loadS m
  | t, _ => True

variable {format : IeeeFormat} {reg : Word} {negative : Bool} {exponent fraction : ℕ}

theorem exists_toNat_eq {n : ℕ} (h : n < 2) : ∃ b : Bool, b.toNat = n := by
  obtain rfl | rfl : n = 0 ∨ n = 1 := by omega
  · exact ⟨false, rfl⟩
  · exact ⟨true, rfl⟩

theorem IsImage.exists_fields (h : format.IsImage reg) : ∃ negative exponent fraction,
    exponent ≤ format.maxExponent ∧ fraction < 2 ^ format.fractionBits ∧
      format.HasFields reg negative exponent fraction := by
  cases format with
  | s =>
    obtain ⟨m, rfl⟩ := h
    have hm := m.isLt
    obtain ⟨negative, hsign⟩ := exists_toNat_eq (show m.toNat / 2 ^ 31 < 2 by omega)
    refine ⟨negative, m.toNat / 2 ^ 23 % 2 ^ 8, m.toNat % 2 ^ 23, ?_, ?_, m, rfl, by omega⟩ <;>
      simp only [maxExponent, exponentBits, fractionBits] <;> omega
  | t =>
    have hreg := reg.isLt
    obtain ⟨negative, hsign⟩ := exists_toNat_eq (show reg.toNat / 2 ^ 63 < 2 by omega)
    refine ⟨negative, reg.toNat / 2 ^ 52 % 2 ^ 11, reg.toNat % 2 ^ 52, ?_, ?_, ?_⟩ <;>
      simp only [HasFields, maxExponent, exponentBits, fractionBits] <;> omega

theorem isImage_t (reg : Word) : t.IsImage reg := trivial

theorem HasFields.isImage (h : format.HasFields reg negative exponent fraction) :
    format.IsImage reg := by
  cases format with
  | s =>
    obtain ⟨m, rfl, -⟩ := h
    exact ⟨m, rfl⟩
  | t => trivial

theorem unpack_maxExponent (h : format.HasFields reg negative format.maxExponent fraction)
    (hfraction : fraction < 2 ^ format.fractionBits) :
    format.unpack reg = if fraction = 0 then .infinity negative else .notANumber reg := by
  have hlt : format.maxExponent < 2 ^ format.exponentBits := Nat.sub_one_lt (by positivity)
  obtain ⟨hhigh, hlow⟩ := MemoryFormat.fields_of_sum h.image_eq hlt hfraction
  rw [unpack, h.msb le_rfl hfraction]
  simp only [Nat.shiftRight_eq_div_pow, Nat.one_shiftLeft, hlow, hhigh,
    if_neg format.maxExponent_pos.ne', ← show format.maxExponent = 2 ^ format.exponentBits - 1 from rfl,
    if_true]

theorem HasFields.isNaN_iff (h : format.HasFields reg negative exponent fraction)
    (hexponent : exponent ≤ format.maxExponent) (hfraction : fraction < 2 ^ format.fractionBits) :
    NotANumber.isNaN reg = true ↔ exponent = format.maxExponent ∧ fraction ≠ 0 := by
  have hsign := negative.toNat_le
  rw [NotANumber.isNaN_iff]
  cases format with
  | s =>
    obtain ⟨m, rfl, hm⟩ := h
    have hreg := MemoryFormat.toNat_loadS m
    simp only [maxExponent, exponentBits, fractionBits] at *
    have hexponent' : m.toNat / 2 ^ 23 % 2 ^ 8 = exponent := by omega
    have hfraction' : m.toNat % 2 ^ 23 = fraction := by omega
    have hlt : exponent < 2 ^ 8 := by omega
    have hwide := MemoryFormat.widened_lt hlt
    have hmax := MemoryFormat.widened_eq_max hlt
    rw [hexponent', hfraction'] at hreg
    omega
  | t =>
    simp only [HasFields, maxExponent, exponentBits, fractionBits] at *
    omega

theorem Represents.not_isNaN {x : ℚ} (h : format.Represents reg negative x) :
    NotANumber.isNaN reg = false := by
  obtain ⟨exponent, fraction, hexponent, hfraction, hfields, -⟩ := h
  rw [← Bool.not_eq_true, hfields.isNaN_iff hexponent.le hfraction]
  exact fun h => hexponent.ne h.1

theorem IsInfinity.not_isNaN (h : format.IsInfinity reg negative) :
    NotANumber.isNaN reg = false := by
  rw [← Bool.not_eq_true, HasFields.isNaN_iff h le_rfl (Nat.two_pow_pos _)]
  exact fun h => h.2 rfl

end IeeeFormat

inductive IeeeValue.IsOrdered : IeeeValue → Prop
  | zero (negative : Bool) : IsOrdered (.zero negative)
  | nonzero {u : IeeeValue} {negative : Bool} {x : ℚ} (is : u.Is negative x) (hne : x ≠ 0) :
      IsOrdered u
  | infinity (negative : Bool) : IsOrdered (.infinity negative)

theorem IeeeValue.Is.isOrdered {u : IeeeValue} {negative : Bool} {x : ℚ} (h : u.Is negative x) :
    u.IsOrdered := by
  by_cases hx : x = 0
  · rw [h.of_eq_zero hx]
    exact .zero negative
  · exact .nonzero h hx

namespace IeeeContext

def Rejects (ctx : IeeeContext) (format : IeeeFormat) (reg : Word) : Prop :=
  (∃ negative x, format.Represents reg negative x ∧ x ≠ 0 ∧ |x| < 2 ^ format.limits.emin) ∧
    ctx.traps.software = false ∧ ctx.control.denormalsToZero = false

inductive Takes (ctx : IeeeContext) (format : IeeeFormat) (reg : Word) : IeeeValue → Prop
  | number {negative : Bool} {x : ℚ} {u : IeeeValue} (admits : ctx.Admits format reg negative x)
      (is : u.Is negative x) : Takes ctx format reg u
  | infinity {negative : Bool} (image : format.IsInfinity reg negative) :
      Takes ctx format reg (.infinity negative)
  | notANumber (nan : NotANumber.isNaN reg = true) : Takes ctx format reg (.notANumber reg)

variable {ctx : IeeeContext} {format : IeeeFormat} {reg : Word} {negative : Bool} {x : ℚ}

theorem Admits.represents (h : ctx.Admits format reg negative x) :
    ∃ y, format.Represents reg negative y := by
  cases h with
  | normal image => exact ⟨_, image⟩
  | denormal image => exact ⟨_, image⟩
  | flushed image => exact ⟨_, image⟩

theorem Rejects.operand_eq (h : ctx.Rejects format reg) :
    ctx.operand format reg = .error invalid := by
  obtain ⟨⟨negative, x, image, hne, small⟩, hsoftware, hkept⟩ := h
  obtain ⟨v, hv⟩ := (IeeeFormat.unpack_spec image).2.mpr ⟨hne, small⟩
  simp [operand, hv, hsoftware, hkept]

theorem rejects_or_admits (ctx : IeeeContext) (image : format.Represents reg negative x) :
    ctx.Rejects format reg ∨ ∃ y, ctx.Admits format reg negative y := by
  by_cases large : x = 0 ∨ 2 ^ format.limits.emin ≤ |x|
  · exact .inr ⟨x, .normal image large⟩
  · obtain ⟨hne, small⟩ := not_or.mp large
    rw [not_le] at small
    cases hflush : ctx.control.denormalsToZero with
    | true => exact .inr ⟨0, .flushed image small hflush⟩
    | false =>
      cases hsoftware : ctx.traps.software with
      | true => exact .inr ⟨x, .denormal image small hsoftware hflush⟩
      | false => exact .inl ⟨⟨negative, x, image, hne, small⟩, hsoftware, hflush⟩

theorem operand_cases (ctx : IeeeContext) (h : format.IsImage reg) :
    ctx.Rejects format reg ∨
      ∃ u, ctx.operand format reg = .ok u ∧ ctx.Takes format reg u := by
  obtain ⟨negative, exponent, fraction, hexponent, hfraction, hfields⟩ := h.exists_fields
  rcases hexponent.lt_or_eq with hlt | rfl
  · rcases rejects_or_admits ctx ⟨exponent, fraction, hlt, hfraction, hfields, rfl⟩ with
      hrejects | ⟨y, hadmits⟩
    · exact .inl hrejects
    · obtain ⟨u, hu, his⟩ := operand_spec hadmits
      exact .inr ⟨u, hu, .number hadmits his⟩
  · have hunpack := IeeeFormat.unpack_maxExponent hfields hfraction
    rw [operand, hunpack]
    by_cases hzero : fraction = 0
    · subst hzero
      exact .inr ⟨_, rfl, .infinity hfields⟩
    · rw [if_neg hzero]
      have hnan := (hfields.isNaN_iff le_rfl hfraction).mpr ⟨rfl, hzero⟩
      exact .inr ⟨_, rfl, .notANumber hnan⟩

theorem operand_infinity (h : format.IsInfinity reg negative) :
    ctx.operand format reg = .ok (.infinity negative) := by
  rw [operand, IeeeFormat.unpack_maxExponent h (Nat.two_pow_pos _)]
  rfl

theorem Rejects.not_isNaN (h : ctx.Rejects format reg) : NotANumber.isNaN reg = false := by
  obtain ⟨⟨negative, x, image, -⟩, -⟩ := h
  exact image.not_isNaN

theorem not_rejects_of_operand {u : IeeeValue} (h : ctx.operand format reg = .ok u) :
    ¬ctx.Rejects format reg := by
  intro hrejects
  rw [hrejects.operand_eq] at h
  cases h

theorem takes_of_operand (h : format.IsImage reg) {u : IeeeValue}
    (hu : ctx.operand format reg = .ok u) : ctx.Takes format reg u := by
  obtain hrejects | ⟨v, hv, htakes⟩ := operand_cases ctx h
  · exact absurd hrejects (not_rejects_of_operand hu)
  · obtain rfl := Except.ok.inj (hu.symm.trans hv)
    exact htakes

theorem Takes.isNaN_iff {u : IeeeValue} (h : ctx.Takes format reg u) :
    NotANumber.isNaN reg = true ↔ u = .notANumber reg := by
  cases h with
  | number admits is =>
    obtain ⟨y, image⟩ := admits.represents
    rw [image.not_isNaN]
    cases is <;> simp
  | infinity image => simp [image.not_isNaN]
  | notANumber nan => simp [nan]

theorem Takes.isOrdered {u : IeeeValue} (h : ctx.Takes format reg u)
    (hnan : NotANumber.isNaN reg = false) : u.IsOrdered := by
  cases h with
  | number _ is => exact is.isOrdered
  | infinity => exact .infinity _
  | notANumber nan => simp [nan] at hnan

theorem operand_of_isNaN (h : format.IsImage reg) (hnan : NotANumber.isNaN reg = true) :
    ctx.operand format reg = .ok (.notANumber reg) := by
  obtain hrejects | ⟨u, hu, htakes⟩ := operand_cases ctx h
  · simp [hrejects.not_isNaN] at hnan
  · rw [hu, htakes.isNaN_iff.mp hnan]

section Operands

variable {a b : Word}

theorem operands_eq_ok {u v : IeeeValue} (hu : ctx.operand format a = .ok u)
    (hv : ctx.operand format b = .ok v) : ctx.operands format a b = .ok (u, v) := by
  simp [operands, hu, hv, bind, Except.bind, pure, Except.pure]

theorem operands_of_rejects (ha : format.IsImage a)
    (h : ctx.Rejects format a ∨ ctx.Rejects format b) :
    ctx.operands format a b = .error invalid := by
  obtain hrejects | ⟨u, hu, -⟩ := operand_cases ctx ha
  · simp [operands, hrejects.operand_eq, bind, Except.bind]
  · have hrejects := h.resolve_left (not_rejects_of_operand hu)
    simp [operands, hu, hrejects.operand_eq, bind, Except.bind]

theorem binary_cases (ctx : IeeeContext) (ha : format.IsImage a) (hb : format.IsImage b)
    (op : IeeeValue → IeeeValue → FloatResult) :
    (∃ reg ∈ [b, a], ctx.Rejects format reg) ∧ ctx.binary format a b op = invalid ∨
      ∃ u v, ctx.operand format a = .ok u ∧ ctx.operand format b = .ok v ∧
        ctx.binary format a b op = (nan? u v).getD (op u v) := by
  obtain hrejects | ⟨u, hu, -⟩ := operand_cases ctx ha
  · exact .inl ⟨⟨a, by simp, hrejects⟩, by rw [binary, operands_of_rejects ha (.inl hrejects)]⟩
  obtain hrejects | ⟨v, hv, -⟩ := operand_cases ctx hb
  · exact .inl ⟨⟨b, by simp, hrejects⟩, by rw [binary, operands_of_rejects ha (.inr hrejects)]⟩
  · exact .inr ⟨u, v, hu, hv, by rw [binary, operands_eq_ok hu hv]⟩

end Operands

end IeeeContext

end EV6
