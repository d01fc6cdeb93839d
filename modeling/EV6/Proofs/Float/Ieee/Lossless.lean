import EV6.Proofs.Float.Ieee.NaN
import EV6.Proofs.Float.MemoryFormat
/-!
What is lost of a result that is stored in S_floating. Arithmetic on images that loads make gives such
images again, since results are packed through the memory layout. A conversion from T_floating does
too, unless a NaN has more of a fraction than S_floating keeps.
-/

namespace EV6

def MemoryFormat.Lossless (reg : Word) : Prop := loadS (storeS reg) = reg

namespace NotANumber

open MemoryFormat (registerExponent)

theorem toNat_quiet (bits : Word) : (quiet bits).toNat = bits.toNat ||| 2 ^ 51 := BitVec.toNat_or ..

theorem quiet_mod (bits : Word) : (quiet bits).toNat % 2 ^ 29 = bits.toNat % 2 ^ 29 := by
  rw [toNat_quiet, Nat.or_mod_two_pow, show 2 ^ 51 % 2 ^ 29 = 0 from rfl, Nat.or_zero]

theorem registerExponent_quiet (bits : Word) :
    registerExponent (quiet bits) = registerExponent bits := by
  rw [registerExponent, toNat_quiet, ← Nat.shiftRight_eq_div_pow, Nat.shiftRight_or_distrib,
    show 2 ^ 51 >>> 52 = 0 from rfl, Nat.or_zero, Nat.shiftRight_eq_div_pow, registerExponent]

end NotANumber

namespace IeeeFormat

open MemoryFormat (Lossless)

variable {format : IeeeFormat} {reg : Word} {negative : Bool} {x : ℚ}

theorem isImage_s_iff : s.IsImage reg ↔ Lossless reg := by
  constructor
  · rintro ⟨m, rfl⟩
    exact congrArg MemoryFormat.loadS (MemoryFormat.storeS_loadS m)
  · intro h
    exact ⟨_, h.symm⟩

theorem lossless_quiet_iff : Lossless (NotANumber.quiet reg) ↔ Lossless reg := by
  rw [Lossless, Lossless, MemoryFormat.loadS_storeS_iff, MemoryFormat.loadS_storeS_iff,
    NotANumber.quiet_mod, NotANumber.registerExponent_quiet]

theorem lossless_iff_of_isNaN (h : NotANumber.isNaN reg = true) :
    Lossless reg ↔ reg.toNat % 2 ^ 29 = 0 := by
  have hexponent : MemoryFormat.registerExponent reg = 2047 := ((NotANumber.isNaN_iff reg).mp h).1
  rw [Lossless, MemoryFormat.loadS_storeS_iff]
  simp [hexponent]

theorem Represents.isImage (h : format.Represents reg negative x) : format.IsImage reg := by
  obtain ⟨_, _, -, -, hfields, -⟩ := h
  exact hfields.isImage

theorem isImage_assemble (format : IeeeFormat) (negative : Bool) (exponent fraction : ℕ) :
    format.IsImage (format.assemble negative exponent fraction) := by
  cases format with
  | s => exact ⟨_, rfl⟩
  | t => trivial

theorem isImage_pack (format : IeeeFormat) (v : Exact) : format.IsImage (format.pack v) := by
  rw [pack]
  split_ifs <;> exact isImage_assemble ..

theorem isImage_zero (format : IeeeFormat) (negative : Bool) : format.IsImage (zero negative) :=
  (format.zero_represents negative).isImage

theorem isImage_infinity (format : IeeeFormat) (negative : Bool) :
    format.IsImage (infinity negative) :=
  (format.infinity_hasFields negative).isImage

theorem isImage_canonical (format : IeeeFormat) : format.IsImage NotANumber.canonical := by
  cases format with
  | s => exact ⟨0xFFC00000, by decide⟩
  | t => trivial

theorem IsImage.quiet (h : format.IsImage reg) : format.IsImage (NotANumber.quiet reg) := by
  cases format with
  | s => exact isImage_s_iff.mpr (lossless_quiet_iff.mpr (isImage_s_iff.mp h))
  | t => trivial

theorem IsImage.propagate {a b bits : Word} (ha : format.IsImage a) (hb : format.IsImage b)
    (h : NotANumber.propagate a b = some bits) : format.IsImage bits := by
  rw [NotANumber.propagate] at h
  split_ifs at h
  · exact Option.some.inj h ▸ hb.quiet
  · exact Option.some.inj h ▸ ha.quiet

end IeeeFormat

namespace IeeeContext

variable {ctx : IeeeContext} {format : IeeeFormat} {a b : Word} {v : IeeeValue}

theorem isImage_underflowed (r : Rounded) : format.IsImage (ctx.underflowed format r).bits := by
  rw [underflowed]
  split_ifs
  · exact format.isImage_pack _
  · exact format.isImage_zero _

theorem isImage_overflowed (negative : Bool) :
    format.IsImage (ctx.overflowed format negative).bits := by
  rw [overflowed]
  split_ifs
  · exact format.isImage_infinity _
  · exact format.isImage_assemble ..

theorem isImage_finish (exact : Truncated) : format.IsImage (ctx.finish format exact).bits := by
  rw [finish]
  split_ifs
  · exact isImage_overflowed _
  · exact isImage_underflowed _
  · exact format.isImage_pack _

theorem isImage_addValues (u v : IeeeValue) : format.IsImage (ctx.addValues format u v).bits := by
  unfold addValues
  split
  · split_ifs
    · exact format.isImage_infinity _
    · exact format.isImage_canonical
  · exact format.isImage_infinity _
  · exact format.isImage_infinity _
  · exact format.isImage_zero _
  · dsimp only
    split_ifs
    · exact format.isImage_zero _
    · exact isImage_finish _

theorem isImage_mulValues (u v : IeeeValue) : format.IsImage (ctx.mulValues format u v).bits := by
  unfold mulValues
  split
  · exact format.isImage_canonical
  · exact format.isImage_canonical
  · exact format.isImage_infinity _
  · exact format.isImage_infinity _
  · exact format.isImage_zero _
  · exact format.isImage_zero _
  · exact isImage_finish _

theorem isImage_divValues (u v : IeeeValue) : format.IsImage (ctx.divValues format u v).bits := by
  unfold divValues
  split
  · exact format.isImage_canonical
  · exact format.isImage_canonical
  · exact format.isImage_infinity _
  · exact format.isImage_zero _
  · exact format.isImage_infinity _
  · exact format.isImage_zero _
  · exact isImage_finish _

theorem isImage_squareRootValue (v : IeeeValue) :
    format.IsImage (ctx.squareRootValue format v).bits := by
  unfold squareRootValue
  split
  · exact format.isImage_zero _
  · exact format.isImage_infinity _
  · exact format.isImage_canonical
  · split_ifs
    · exact format.isImage_canonical
    · exact isImage_finish _

theorem isImage_binary (ha : format.IsImage a) (hb : format.IsImage b)
    {op : IeeeValue → IeeeValue → FloatResult} (h : ∀ u v, format.IsImage (op u v).bits) :
    format.IsImage (ctx.binary format a b op).bits := by
  obtain ⟨-, hresult⟩ | ⟨u, v, hu, hv, hresult⟩ := binary_cases ctx ha hb op
  · rw [hresult]
    exact format.isImage_canonical
  rw [hresult, nan?_eq (takes_of_operand ha hu) (takes_of_operand hb hv)]
  cases hnan : NotANumber.propagate a b with
  | none => exact h u v
  | some bits => exact ha.propagate hb hnan

theorem isImage_arithmetic (op : FloatArithmetic) (ha : format.IsImage a) (hb : format.IsImage b) :
    format.IsImage (ctx.arithmetic op format a b).bits := by
  cases op with
  | add => exact isImage_binary ha hb isImage_addValues
  | sub => exact isImage_binary ha hb fun u v => isImage_addValues u v.negate
  | mul => exact isImage_binary ha hb isImage_mulValues
  | div => exact isImage_binary ha hb isImage_divValues

theorem isImage_squareRoot (hb : format.IsImage b) :
    format.IsImage (ctx.squareRoot format b).bits := by
  obtain hrejects | ⟨v, hv, htakes⟩ := operand_cases ctx hb
  · rw [squareRoot, hrejects.operand_eq]
    exact format.isImage_canonical
  have hroot : ctx.squareRoot format b =
      (nan? (.zero false) v).getD (ctx.squareRootValue format v) := by
    rw [squareRoot, hv]
  rw [hroot, nan?_of_takes htakes]
  cases NotANumber.isNaN b with
  | true => exact hb.quiet
  | false => exact isImage_squareRootValue v

theorem isImage_ofQuad (b : Word) : format.IsImage (ctx.ofQuad format b).bits := by
  rw [ofQuad]
  split_ifs
  · exact format.isImage_zero false
  · exact isImage_finish _

theorem convert_of_isNaN (target : IeeeFormat) (hb : format.IsImage b)
    (hnan : NotANumber.isNaN b = true) :
    (ctx.convert format target b).bits = NotANumber.quiet b := by
  rw [convert, operand_of_isNaN hb hnan]

theorem isImage_convert (target : IeeeFormat) (hb : format.IsImage b)
    (hnan : NotANumber.isNaN b = false) : target.IsImage (ctx.convert format target b).bits := by
  obtain hrejects | ⟨v, hv, htakes⟩ := operand_cases ctx hb
  · rw [convert, hrejects.operand_eq]
    exact target.isImage_canonical
  rw [convert, hv]
  cases htakes.isOrdered hnan with
  | zero m => exact target.isImage_zero m
  | infinity m => exact target.isImage_infinity m
  | nonzero is hne =>
    obtain ⟨w, rfl | rfl⟩ := is.of_ne_zero hne <;> exact isImage_finish _

open MemoryFormat (Lossless loadS) in
theorem singles_lossless_iff (ctx : IeeeContext) :
    (∀ (op : FloatArithmetic) (m n : Longword),
      Lossless (ctx.arithmetic op .s (loadS m) (loadS n)).bits) ∧
    (∀ m : Longword, Lossless (ctx.squareRoot .s (loadS m)).bits) ∧
    (∀ b : Word, Lossless (ctx.ofQuad .s b).bits) ∧
    ∀ b : Word, Lossless (ctx.tToS b).bits ↔
      (NotANumber.isNaN b = true → b.toNat % 2 ^ 29 = 0) := by
  refine ⟨fun op m n => ?_, fun m => ?_, fun b => ?_, fun b => ?_⟩
  · exact IeeeFormat.isImage_s_iff.mp (isImage_arithmetic op ⟨m, rfl⟩ ⟨n, rfl⟩)
  · exact IeeeFormat.isImage_s_iff.mp (isImage_squareRoot ⟨m, rfl⟩)
  · exact IeeeFormat.isImage_s_iff.mp (isImage_ofQuad b)
  · have hb := IeeeFormat.isImage_t b
    cases hnan : NotANumber.isNaN b with
    | false =>
      have himage : IeeeFormat.s.IsImage (ctx.tToS b).bits := isImage_convert .s hb hnan
      exact iff_of_true (IeeeFormat.isImage_s_iff.mp himage) (fun h => by cases h)
    | true =>
      rw [tToS, convert_of_isNaN .s hb hnan, IeeeFormat.lossless_quiet_iff,
        IeeeFormat.lossless_iff_of_isNaN hnan]
      simp

theorem nan_fraction_lost :
    downward.tToS 0x7FF8000000000001 = ⟨0x7FF8000000000001, .none⟩ ∧
      ¬MemoryFormat.Lossless (downward.tToS 0x7FF8000000000001).bits := by
  refine ⟨by decide, fun h => ?_⟩
  have hclear := ((singles_lossless_iff downward).2.2.2 0x7FF8000000000001).mp h (by decide)
  exact absurd hclear (by decide)

end IeeeContext

end EV6
