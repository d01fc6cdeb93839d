import EV6.Proofs.Float.Ieee.Images
import EV6.Proofs.Float.SquareRoot
/-!
Invalid operations and NaNs. The denormal policy comes first, NaN operands are propagated next, and
what is left is invalid only for operands that have no result.
-/

namespace EV6

structure FloatResult.IsValid (r : FloatResult) : Prop where
  silent : r.flags.invalid = false
  number : NotANumber.isNaN r.bits = false

structure FloatResult.Settles (undefined : Prop) (r : FloatResult) : Prop where
  invalid : undefined → r = IeeeContext.invalid
  valid : ¬undefined → r.IsValid

namespace IeeeValue

theorem IsOrdered.negate {u : IeeeValue} (h : u.IsOrdered) : u.negate.IsOrdered := by
  cases h with
  | zero negative => exact .zero _
  | nonzero is hne => exact .nonzero is.negate (neg_ne_zero.mpr hne)
  | infinity negative => exact .infinity _

theorem Is.unique {u : IeeeValue} {m n : Bool} {x y : ℚ} (h : u.Is m x) (h' : u.Is n y) :
    m = n ∧ x = y := by
  cases h <;> cases h' <;> exact ⟨rfl, rfl⟩

theorem negate_eq_infinity {u : IeeeValue} {m : Bool} : u.negate = .infinity m ↔ u = .infinity !m := by
  cases u <;> simp [negate, Bool.not_eq_eq_eq_not]

end IeeeValue

namespace NotANumber

theorem propagate_eq (a b : Word) : propagate a b = ([b, a].find? isNaN).map quiet := by
  cases ha : isNaN a <;> cases hb : isNaN b <;> simp [propagate, ha, hb]

end NotANumber

namespace IeeeContext

variable {ctx : IeeeContext} {format : IeeeFormat} {a b reg : Word} {u v : IeeeValue} {x : ℚ}

def Undefined (ctx : IeeeContext) (format : IeeeFormat) (a b : Word) : FloatArithmetic → Prop
  | .add => ∃ m, format.IsInfinity a m ∧ format.IsInfinity b !m
  | .sub => ∃ m, format.IsInfinity a m ∧ format.IsInfinity b m
  | .mul => (∃ m n, format.IsInfinity a m ∧ ctx.Admits format b n 0) ∨
      ∃ m n, ctx.Admits format a m 0 ∧ format.IsInfinity b n
  | .div => (∃ m n, format.IsInfinity a m ∧ format.IsInfinity b n) ∨
      ∃ m n, ctx.Admits format a m 0 ∧ ctx.Admits format b n 0

def UndefinedRoot (ctx : IeeeContext) (format : IeeeFormat) (b : Word) : Prop :=
  format.IsInfinity b true ∨ ∃ m x, ctx.Admits format b m x ∧ x < 0

/-- How an operation treats NaNs and invalid operations. The operands are listed from the one whose
NaN is propagated first. -/
structure FollowsNanLaw (ctx : IeeeContext) (format : IeeeFormat) (operands : List Word)
    (undefined : Prop) (r : FloatResult) : Prop where
  invalid : r.flags.invalid = true ↔ (∃ reg ∈ operands, ctx.Rejects format reg) ∨
    (∀ reg ∈ operands, ¬ctx.Rejects format reg) ∧
      ((∃ reg ∈ operands, NotANumber.isSignaling reg = true) ∨
        (∀ reg ∈ operands, NotANumber.isNaN reg = false) ∧ undefined)
  nan : NotANumber.isNaN r.bits = true ↔
    r.flags.invalid = true ∨ ∃ reg ∈ operands, NotANumber.isNaN reg = true
  quiet : NotANumber.isSignaling r.bits = false
  propagated : (∀ reg ∈ operands, ¬ctx.Rejects format reg) →
    ∀ reg, operands.find? NotANumber.isNaN = some reg → r.bits = NotANumber.quiet reg

theorem isValid_of_represents {m : Bool} {r : FloatResult} (image : format.Represents r.bits m x)
    (silent : r.flags.invalid = false) : r.IsValid :=
  ⟨silent, image.not_isNaN⟩

theorem exactZero_isValid (negative : Bool) : (exactZero negative).IsValid :=
  isValid_of_represents (IeeeFormat.t.zero_represents negative) rfl

theorem isValid_infinity (negative : Bool) {flags : FloatFlags} (silent : flags.invalid = false) :
    FloatResult.IsValid ⟨IeeeFormat.infinity negative, flags⟩ :=
  ⟨silent, IeeeFormat.IsInfinity.not_isNaN (IeeeFormat.t.infinity_hasFields negative)⟩

theorem Delivers.isValid {r : FloatResult} (h : ctx.Delivers format x r) : r.IsValid := by
  cases h with
  | denormal _ _ _ _ image => exact isValid_of_represents image rfl
  | flushed _ _ image => exact isValid_of_represents image rfl
  | rounded _ _ _ image => exact isValid_of_represents image rfl
  | infinite _ _ _ image => exact ⟨rfl, IeeeFormat.IsInfinity.not_isNaN image⟩
  | largest _ _ _ image => exact isValid_of_represents image rfl

theorem DeliversSum.isValid {m n : Bool} {y : ℚ} {r : FloatResult}
    (h : ctx.DeliversSum format m x n y r) : r.IsValid := by
  cases h with
  | zero _ _ image => exact isValid_of_represents image rfl
  | nonzero _ delivers => exact delivers.isValid

theorem settles_of_isValid {undefined : Prop} {r : FloatResult} (h : ¬undefined)
    (hvalid : r.IsValid) : r.Settles undefined :=
  ⟨fun hundefined => absurd hundefined h, fun _ => hvalid⟩

theorem invalid_settles {undefined : Prop} (h : undefined) : invalid.Settles undefined :=
  ⟨fun _ => rfl, fun hdefined => absurd h hdefined⟩

theorem addValues_settles (hu : u.IsOrdered) (hv : v.IsOrdered) :
    (ctx.addValues format u v).Settles (∃ m, u = .infinity m ∧ v = .infinity !m) := by
  cases hu with
  | zero m =>
    cases hv with
    | zero n =>
      exact settles_of_isValid (by simp) (addValues_delivers (.zero m) (.zero n)).isValid
    | nonzero hy hne =>
      exact settles_of_isValid (by simp) (addValues_delivers (.zero m) hy).isValid
    | infinity n => exact settles_of_isValid (by simp) (isValid_infinity n rfl)
  | nonzero hx hne =>
    refine settles_of_isValid ?_ ?_
    · obtain ⟨w, rfl | rfl⟩ := hx.of_ne_zero hne <;> simp
    · cases hv with
      | zero n => exact (addValues_delivers hx (.zero n)).isValid
      | nonzero hy hne' => exact (addValues_delivers hx hy).isValid
      | infinity n =>
        obtain ⟨w, rfl | rfl⟩ := hx.of_ne_zero hne <;> exact isValid_infinity n rfl
  | infinity m =>
    cases hv with
    | zero n => exact settles_of_isValid (by simp) (isValid_infinity m rfl)
    | nonzero hy hne =>
      obtain ⟨w, rfl | rfl⟩ := hy.of_ne_zero hne <;>
        exact settles_of_isValid (by simp) (isValid_infinity m rfl)
    | infinity n =>
      rw [addValues]
      split_ifs with hsame
      · refine settles_of_isValid ?_ (isValid_infinity m rfl)
        simp [hsame]
      · refine invalid_settles ⟨m, rfl, ?_⟩
        rw [Bool.eq_not.mpr (Ne.symm hsame)]

theorem mulValues_settles (hu : u.IsOrdered) (hv : v.IsOrdered) :
    (ctx.mulValues format u v).Settles ((∃ m n, u = .infinity m ∧ v = .zero n) ∨
      ∃ m n, u = .zero m ∧ v = .infinity n) := by
  cases hu with
  | zero m =>
    cases hv with
    | zero n => exact settles_of_isValid (by simp) (exactZero_isValid _)
    | nonzero hy hne =>
      obtain ⟨w, rfl | rfl⟩ := hy.of_ne_zero hne <;>
        exact settles_of_isValid (by simp) (exactZero_isValid _)
    | infinity n => exact invalid_settles (.inr ⟨m, n, rfl, rfl⟩)
  | nonzero hx hne =>
    refine settles_of_isValid ?_ ?_
    · obtain ⟨w, rfl | rfl⟩ := hx.of_ne_zero hne <;> simp
    · cases hv with
      | zero n => obtain ⟨w, rfl | rfl⟩ := hx.of_ne_zero hne <;> exact exactZero_isValid _
      | nonzero hy hne' => exact (mulValues_delivers hx hy hne hne').isValid
      | infinity n =>
        obtain ⟨w, rfl | rfl⟩ := hx.of_ne_zero hne <;> exact isValid_infinity _ rfl
  | infinity m =>
    cases hv with
    | zero n => exact invalid_settles (.inl ⟨m, n, rfl, rfl⟩)
    | nonzero hy hne =>
      obtain ⟨w, rfl | rfl⟩ := hy.of_ne_zero hne <;>
        exact settles_of_isValid (by simp) (isValid_infinity _ rfl)
    | infinity n => exact settles_of_isValid (by simp) (isValid_infinity _ rfl)

theorem divValues_settles (hu : u.IsOrdered) (hv : v.IsOrdered) :
    (ctx.divValues format u v).Settles ((∃ m n, u = .infinity m ∧ v = .infinity n) ∨
      ∃ m n, u = .zero m ∧ v = .zero n) := by
  cases hu with
  | zero m =>
    cases hv with
    | zero n => exact invalid_settles (.inr ⟨m, n, rfl, rfl⟩)
    | nonzero hy hne =>
      obtain ⟨w, rfl | rfl⟩ := hy.of_ne_zero hne <;>
        exact settles_of_isValid (by simp) (exactZero_isValid _)
    | infinity n => exact settles_of_isValid (by simp) (exactZero_isValid _)
  | nonzero hx hne =>
    refine settles_of_isValid ?_ ?_
    · obtain ⟨w, rfl | rfl⟩ := hx.of_ne_zero hne <;> simp
    · cases hv with
      | zero n => obtain ⟨w, rfl | rfl⟩ := hx.of_ne_zero hne <;> exact isValid_infinity _ rfl
      | nonzero hy hne' => exact (divValues_delivers hx hy hne hne').isValid
      | infinity n => obtain ⟨w, rfl | rfl⟩ := hx.of_ne_zero hne <;> exact exactZero_isValid _
  | infinity m =>
    cases hv with
    | zero n => exact settles_of_isValid (by simp) (isValid_infinity _ rfl)
    | nonzero hy hne =>
      obtain ⟨w, rfl | rfl⟩ := hy.of_ne_zero hne <;>
        exact settles_of_isValid (by simp) (isValid_infinity _ rfl)
    | infinity n => exact invalid_settles (.inl ⟨m, n, rfl, rfl⟩)

theorem squareRootValue_settles (hv : v.IsOrdered) :
    (ctx.squareRootValue format v).Settles (v = .infinity true ∨ ∃ m x, v.Is m x ∧ x < 0) := by
  cases hv with
  | zero m =>
    refine settles_of_isValid ?_ (exactZero_isValid m)
    rintro (h | ⟨n, x, his, hneg⟩)
    · cases h
    · rw [← his.value_eq, IeeeValue.exact, (Exact.isZero_iff _).mp rfl] at hneg
      exact lt_irrefl _ hneg
  | @nonzero _ m x hx hne =>
    rcases hne.lt_or_gt with hneg | hpos
    · have hresult : ctx.squareRootValue format v = invalid := by
        cases hx with
        | zero => exact absurd rfl hne
        | finite w => exact if_pos (w.negative_of_neg hneg)
        | denormal w => exact if_pos (w.negative_of_neg hneg)
      rw [hresult]
      exact invalid_settles (.inr ⟨m, x, hx, hneg⟩)
    · obtain ⟨w, hw, hlt, rfl, hfinish⟩ :=
        exists_squareRootValue_eq ctx format hx hpos
      obtain ⟨q, hresolves, -, hq, -⟩ := w.exists_squareRoot_resolves hw (hlt.trans (by norm_num))
      have hdelivers : ctx.Delivers format q _ := finish_delivers hresolves hq.ne'
      rw [hfinish]
      refine settles_of_isValid ?_ hdelivers.isValid
      rintro (rfl | ⟨n, y, hy, hneg⟩)
      · cases hx
      · rw [← hy.value_eq, hx.value_eq] at hneg
        exact hneg.not_gt hpos
  | infinity m =>
    cases m with
    | false =>
      refine settles_of_isValid ?_ (isValid_infinity false rfl)
      rintro (h | ⟨n, y, hy, -⟩)
      · cases h
      · cases hy
    | true => exact invalid_settles (.inl rfl)

theorem nanBits?_of_isOrdered (h : v.IsOrdered) : nanBits? v = none := by
  cases h with
  | zero => rfl
  | nonzero is => exact nanBits?_eq is
  | infinity => rfl

theorem Takes.nanBits (h : ctx.Takes format reg u) :
    (nanBits? u).getD 0 = if NotANumber.isNaN reg then reg else 0 := by
  cases h with
  | number admits is =>
    obtain ⟨y, image⟩ := admits.represents
    rw [nanBits?_eq is, image.not_isNaN]
    rfl
  | infinity image =>
    rw [image.not_isNaN]
    rfl
  | notANumber nan =>
    rw [nan]
    rfl

theorem nan?_eq (hu : ctx.Takes format a u) (hv : ctx.Takes format b v) :
    nan? u v = (NotANumber.propagate a b).map fun bits => ⟨bits,
      if NotANumber.isSignaling a || NotANumber.isSignaling b then .ofInvalid else .none⟩ := by
  rw [nan?, hu.nanBits, hv.nanBits]
  have hzero : NotANumber.isNaN 0#64 = false := by decide
  cases ha : NotANumber.isNaN a <;> cases hb : NotANumber.isNaN b <;>
    simp [NotANumber.propagate, NotANumber.isSignaling, ha, hb, hzero]

section Operands

variable {m : Bool} (h : format.IsImage reg) (hu : ctx.operand format reg = .ok u)
include h hu

theorem isInfinity_iff : format.IsInfinity reg m ↔ u = .infinity m := by
  constructor
  · intro himage
    exact Except.ok.inj (hu.symm.trans (operand_infinity himage))
  · rintro rfl
    cases takes_of_operand h hu with
    | number _ is => cases is
    | infinity image => exact image

theorem admits_iff : ctx.Admits format reg m x ↔ u.Is m x := by
  constructor
  · intro hadmits
    obtain ⟨v, hv, his⟩ := operand_spec hadmits
    obtain rfl := Except.ok.inj (hu.symm.trans hv)
    exact his
  · intro his
    cases takes_of_operand h hu with
    | number admits is =>
      obtain ⟨rfl, rfl⟩ := is.unique his
      exact admits
    | infinity => cases his
    | notANumber => cases his

theorem admits_zero_iff : ctx.Admits format reg m 0 ↔ u = .zero m := by
  rw [admits_iff h hu]
  constructor
  · intro his
    exact his.of_eq_zero rfl
  · rintro rfl
    exact .zero m

end Operands

section Law

variable {operands : List Word} {undefined : Prop} {r : FloatResult}

theorem law_of_rejects (hreg : reg ∈ operands) (h : ctx.Rejects format reg) :
    ctx.FollowsNanLaw format operands undefined invalid where
  invalid := iff_of_true rfl (.inl ⟨reg, hreg, h⟩)
  nan := iff_of_true (by decide) (.inl rfl)
  quiet := by decide
  propagated hnone := absurd h (hnone reg hreg)

theorem law_of_settles (hread : ∀ reg ∈ operands, ¬ctx.Rejects format reg)
    (hordered : ∀ reg ∈ operands, NotANumber.isNaN reg = false) (h : r.Settles undefined) :
    ctx.FollowsNanLaw format operands undefined r := by
  have hnoNaN : ¬∃ reg ∈ operands, NotANumber.isNaN reg = true := by
    rintro ⟨reg, hreg, hnan⟩
    simp [hordered reg hreg] at hnan
  have hnoSignaling : ¬∃ reg ∈ operands, NotANumber.isSignaling reg = true := by
    rintro ⟨reg, hreg, hsignaling⟩
    exact hnoNaN ⟨reg, hreg, NotANumber.isNaN_of_isSignaling hsignaling⟩
  have hnoRejected : ¬∃ reg ∈ operands, ctx.Rejects format reg := by simpa using hread
  have hflag : r.flags.invalid = true ↔ undefined := by
    by_cases hundefined : undefined
    · rw [h.invalid hundefined]
      exact iff_of_true rfl hundefined
    · rw [(h.valid hundefined).silent]
      exact iff_of_false Bool.false_ne_true hundefined
  have hnan : NotANumber.isNaN r.bits = true ↔ undefined := by
    by_cases hundefined : undefined
    · rw [h.invalid hundefined]
      exact iff_of_true (by decide) hundefined
    · rw [(h.valid hundefined).number]
      exact iff_of_false Bool.false_ne_true hundefined
  refine ⟨?_, ?_, ?_, ?_⟩
  · rw [hflag, or_iff_right hnoRejected, and_iff_right hread, or_iff_right hnoSignaling,
      and_iff_right hordered]
  · rw [hnan, hflag, or_iff_left hnoNaN]
  · by_cases hundefined : undefined
    · rw [h.invalid hundefined]
      decide
    · rw [NotANumber.isSignaling, (h.valid hundefined).number, Bool.false_and]
  · intro _ reg hfind
    exact absurd ⟨reg, List.mem_of_find?_eq_some hfind, List.find?_some hfind⟩ hnoNaN

theorem law_of_isNaN (hread : ∀ reg ∈ operands, ¬ctx.Rejects format reg)
    (hfind : operands.find? NotANumber.isNaN = some reg) (hbits : r.bits = NotANumber.quiet reg)
    (hflags : r.flags.invalid = operands.any NotANumber.isSignaling) :
    ctx.FollowsNanLaw format operands undefined r := by
  have hmem := List.mem_of_find?_eq_some hfind
  have hnan : NotANumber.isNaN reg = true := List.find?_some hfind
  have hsome : ∃ reg ∈ operands, NotANumber.isNaN reg = true := ⟨reg, hmem, hnan⟩
  have hnoRejected : ¬∃ reg ∈ operands, ctx.Rejects format reg := by simpa using hread
  have hnotAll : ¬∀ reg ∈ operands, NotANumber.isNaN reg = false := by
    intro hall
    simp [hall reg hmem] at hnan
  refine ⟨?_, ?_, ?_, ?_⟩
  · rw [hflags, List.any_eq_true, or_iff_right hnoRejected, and_iff_right hread,
      or_iff_left fun h => hnotAll h.1]
  · rw [hbits]
    exact iff_of_true (NotANumber.isNaN_quiet hnan) (.inr hsome)
  · rw [hbits, NotANumber.isSignaling_quiet]
  · intro _ reg' hfind'
    obtain rfl := Option.some.inj (hfind.symm.trans hfind')
    exact hbits

theorem binary_law (ha : format.IsImage a) (hb : format.IsImage b)
    {op : IeeeValue → IeeeValue → FloatResult}
    (h : ∀ u v, ctx.operand format a = .ok u → ctx.operand format b = .ok v → u.IsOrdered →
      v.IsOrdered → (op u v).Settles undefined) :
    ctx.FollowsNanLaw format [b, a] undefined (ctx.binary format a b op) := by
  obtain ⟨⟨reg, hreg, hrejects⟩, hresult⟩ | ⟨u, v, hu, hv, hresult⟩ := binary_cases ctx ha hb op
  · rw [hresult]
    exact law_of_rejects hreg hrejects
  have htakes := takes_of_operand ha hu
  have htakes' := takes_of_operand hb hv
  have hread : ∀ reg ∈ [b, a], ¬ctx.Rejects format reg := by
    simp [not_rejects_of_operand hu, not_rejects_of_operand hv]
  rw [hresult, nan?_eq htakes htakes', NotANumber.propagate_eq]
  cases hfind : [b, a].find? NotANumber.isNaN with
  | none =>
    have hordered : ∀ reg ∈ [b, a], NotANumber.isNaN reg = false := by
      simpa using List.find?_eq_none.mp hfind
    refine law_of_settles hread hordered (h u v hu hv ?_ ?_)
    · exact htakes.isOrdered (hordered a (by simp))
    · exact htakes'.isOrdered (hordered b (by simp))
  | some reg =>
    refine law_of_isNaN hread hfind rfl ?_
    cases hsa : NotANumber.isSignaling a <;> cases hsb : NotANumber.isSignaling b <;>
      simp [hsa, hsb] <;> rfl

theorem unary_law (hb : format.IsImage b)
    (hrejects : ctx.Rejects format b → r = invalid)
    (hnan : NotANumber.isNaN b = true → r =
      ⟨NotANumber.quiet b, if NotANumber.isSignaling b then .ofInvalid else .none⟩)
    (h : ∀ v, ctx.operand format b = .ok v → v.IsOrdered → r.Settles undefined) :
    ctx.FollowsNanLaw format [b] undefined r := by
  obtain hrejected | ⟨v, hv, htakes⟩ := operand_cases ctx hb
  · rw [hrejects hrejected]
    exact law_of_rejects (by simp) hrejected
  have hread : ∀ reg ∈ [b], ¬ctx.Rejects format reg := by simp [not_rejects_of_operand hv]
  cases hisNaN : NotANumber.isNaN b with
  | false => exact law_of_settles hread (by simpa using hisNaN) (h v hv (htakes.isOrdered hisNaN))
  | true =>
    rw [hnan hisNaN]
    have hfind : [b].find? NotANumber.isNaN = some b := by simp [hisNaN]
    refine law_of_isNaN hread hfind rfl ?_
    cases hsignaling : NotANumber.isSignaling b <;> simp [hsignaling] <;> rfl

end Law

theorem arithmetic_law (op : FloatArithmetic) (ha : format.IsImage a) (hb : format.IsImage b) :
    ctx.FollowsNanLaw format [b, a] (ctx.Undefined format a b op)
      (ctx.arithmetic op format a b) := by
  cases op <;> refine binary_law ha hb fun u v hu hv hx hy => ?_ <;>
    simp only [Undefined, isInfinity_iff ha hu, isInfinity_iff hb hv, admits_zero_iff ha hu,
      admits_zero_iff hb hv]
  case add => exact addValues_settles hx hy
  case sub => simpa [IeeeValue.negate_eq_infinity] using addValues_settles hx hy.negate
  case mul => exact mulValues_settles hx hy
  case div => exact divValues_settles hx hy

theorem nan?_of_takes (hv : ctx.Takes format b v) :
    nan? (.zero false) v = if NotANumber.isNaN b then
      some ⟨NotANumber.quiet b, if NotANumber.isSignaling b then .ofInvalid else .none⟩ else none := by
  have hzero : ctx.Takes format 0 (.zero false) :=
    .number (.normal (format.zero_represents false) (.inl rfl)) (.zero false)
  have hnan : NotANumber.isNaN 0 = false := by decide
  rw [nan?_eq hzero hv, NotANumber.propagate, hnan]
  cases NotANumber.isNaN b <;> rfl

theorem squareRoot_law (hb : format.IsImage b) :
    ctx.FollowsNanLaw format [b] (ctx.UndefinedRoot format b) (ctx.squareRoot format b) := by
  refine unary_law hb ?_ ?_ fun v hv hy => ?_
  · intro hrejects
    rw [squareRoot, hrejects.operand_eq]
  · intro hnan
    have htakes : ctx.Takes format b (.notANumber b) := .notANumber hnan
    rw [squareRoot, operand_of_isNaN hb hnan]
    simp only [nan?_of_takes htakes, hnan, if_true, Option.getD_some]
  · have hnan : nan? (.zero false) v = none := nan?_eq_none rfl (nanBits?_of_isOrdered hy)
    simp only [UndefinedRoot, isInfinity_iff hb hv, admits_iff hb hv]
    rw [squareRoot, hv]
    simp only [hnan, Option.getD_none]
    exact squareRootValue_settles hy

theorem convert_delivers {target : IeeeFormat} {m : Bool} (hv : ctx.operand format b = .ok v)
    (his : v.Is m x) (hx : x ≠ 0) : ctx.Delivers target x (ctx.convert format target b) := by
  have hresolves := v.exact.resolves_value (his.significand_lt.trans (by norm_num))
  rw [his.value_eq] at hresolves
  have hdelivers : ctx.Delivers target x _ := finish_delivers hresolves hx
  rw [convert, hv]
  obtain ⟨w, rfl | rfl⟩ := his.of_ne_zero hx <;> exact hdelivers

theorem convert_law (target : IeeeFormat) (hb : format.IsImage b) :
    ctx.FollowsNanLaw format [b] False (ctx.convert format target b) := by
  refine unary_law hb ?_ ?_ fun v hv hy => ?_
  · intro hrejects
    rw [convert, hrejects.operand_eq]
  · intro hnan
    rw [convert, operand_of_isNaN hb hnan]
  · refine settles_of_isValid not_false ?_
    cases hy with
    | zero m =>
      rw [convert, hv]
      exact exactZero_isValid m
    | infinity m =>
      rw [convert, hv]
      exact isValid_infinity m rfl
    | nonzero is hne => exact (convert_delivers hv is hne).isValid

theorem invalid_operations_and_nans (ctx : IeeeContext) :
    (∀ (op : FloatArithmetic) (format : IeeeFormat) (a b : Word), format.IsImage a →
      format.IsImage b → ctx.FollowsNanLaw format [b, a] (ctx.Undefined format a b op)
        (ctx.arithmetic op format a b)) ∧
    (∀ (format : IeeeFormat) (b : Word), format.IsImage b →
      ctx.FollowsNanLaw format [b] (ctx.UndefinedRoot format b) (ctx.squareRoot format b)) ∧
    (∀ b, ctx.FollowsNanLaw .t [b] False (ctx.tToS b)) ∧
    ∀ m : Longword, ctx.FollowsNanLaw .s [MemoryFormat.loadS m] False
      (ctx.sToT (MemoryFormat.loadS m)) :=
  ⟨fun op _ _ _ ha hb => arithmetic_law op ha hb, fun _ _ hb => squareRoot_law hb,
    fun b => convert_law .s (IeeeFormat.isImage_t b), fun m => convert_law .t ⟨m, rfl⟩⟩

theorem infinity_and_zero_multiplied :
    (IeeeFormat.s.IsImage (IeeeFormat.infinity false) ∧ IeeeFormat.s.IsImage 0) ∧
    downward.FollowsNanLaw .s [0, IeeeFormat.infinity false]
        (downward.Undefined .s (IeeeFormat.infinity false) 0 .mul)
        (downward.arithmetic .mul .s (IeeeFormat.infinity false) 0) ∧
      downward.FollowsNanLaw .s [IeeeFormat.infinity false]
        (downward.UndefinedRoot .s (IeeeFormat.infinity false))
        (downward.squareRoot .s (IeeeFormat.infinity false)) := by
  have hinfinity := (IeeeFormat.s.infinity_hasFields false).isImage
  have hzero : IeeeFormat.s.IsImage 0 := ⟨0, by decide⟩
  exact ⟨⟨hinfinity, hzero⟩,
    (invalid_operations_and_nans downward).1 .mul .s _ _ hinfinity hzero,
    (invalid_operations_and_nans downward).2.1 .s _ hinfinity⟩

example : downward.arithmetic .mul .s (IeeeFormat.infinity false) 0 = invalid := by decide

end IeeeContext

end EV6
