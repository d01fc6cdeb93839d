import EV6.Proofs.Float.Ieee.Images
import EV6.Proofs.Float.Vax
import Mathlib.Data.EReal.Basic

namespace EV6

def FloatRelation.Relates {α : Type} [LE α] [LT α] : FloatRelation → α → α → Prop
  | unordered, _, _ => False
  | equal, x, y => x = y
  | less, x, y => x < y
  | lessEqual, x, y => x ≤ y

theorem FloatRelation.holds_compare {α : Type} [LinearOrder α] (relation : FloatRelation) (x y : α) :
    relation.holds (some (compare x y)) = true ↔ relation.Relates x y := by
  cases relation <;> simp [holds, Relates, compare_lt_iff_lt, le_iff_lt_or_eq]

theorem FloatFlags.invalid_ofInvalid (b : Bool) :
    (if b then ofInvalid else none).invalid = b := by
  cases b <;> rfl

structure FloatResult.Reports (r : FloatResult) (p : Prop) : Prop where
  yes : r.bits = compareTrue ↔ p
  no : r.bits = 0 ↔ ¬p

theorem reports_compareBits {b : Bool} {p : Prop} (h : b = true ↔ p) (flags : FloatFlags) :
    FloatResult.Reports ⟨compareBits b, flags⟩ p := by
  have hne : compareTrue ≠ 0 := by decide
  cases b with
  | false =>
    have hp : ¬p := fun hp => Bool.false_ne_true (h.mpr hp)
    exact ⟨iff_of_false hne.symm hp, iff_of_true rfl hp⟩
  | true =>
    have hp : p := h.mp rfl
    exact ⟨iff_of_true rfl hp, iff_of_false hne (not_not.mpr hp)⟩

namespace Exact

variable {a b : Exact}

theorem abs_value_lt_of_normalExponent (ha : a.significand ≠ 0) (hb : b.significand ≠ 0)
    (h : a.normalExponent < b.normalExponent) : |a.value| < |b.value| := by
  have hlow := (a.abs_value_lt_iff ha b.normalExponent).mpr h
  have hhigh := mt (b.abs_value_lt_iff hb b.normalExponent).mp (lt_irrefl _)
  exact hlow.trans_le (not_lt.mp hhigh)

theorem compareMagnitude_eq (ha : a.significand ≠ 0) (hb : b.significand ≠ 0)
    (hlt : a.significand < 2 ^ 128) (hlt' : b.significand < 2 ^ 128) :
    compareMagnitude a b = compare |a.value| |b.value| := by
  rw [compareMagnitude]
  rcases lt_trichotomy a.normalExponent b.normalExponent with h | h | h
  · rw [compare_lt_iff_lt.mpr h, compare_lt_iff_lt.mpr (abs_value_lt_of_normalExponent ha hb h)]
    rfl
  · -- with the highest bits at one place the significands are of one weight
    have hx := alignedTo_spec a 127 ha hlt
    have hy := alignedTo_spec b 127 hb hlt'
    have hmono : StrictMono fun s : ℕ => (s : ℚ) * 2 ^ (a.normalExponent - 127) :=
      fun s t hst => mul_lt_mul_of_pos_right (by exact_mod_cast hst) (two_zpow_pos _)
    rw [compare_eq_iff_eq.mpr h, ← hx.value, ← hy.value, abs_value, abs_value, hx.exponent,
      hy.exponent, ← h, ← cmp_eq_compare, ← cmp_eq_compare]
    exact (hmono.cmp_map_eq _ _).symm
  · rw [compare_gt_iff_gt.mpr h, compare_gt_iff_gt.mpr (abs_value_lt_of_normalExponent hb ha h)]
    rfl

theorem value_eq_of_negative (h : a.negative = true) : a.value = -|a.value| := by
  conv_lhs => rw [← a.signed_abs_value, h, signed, if_pos rfl]

theorem value_eq_of_not_negative (h : a.negative = false) : a.value = |a.value| := by
  conv_lhs => rw [← a.signed_abs_value, h, signed, if_neg Bool.false_ne_true]

theorem value_neg (ha : a.isZero = false) (h : a.negative = true) : a.value < 0 := by
  rw [value_eq_of_negative h, neg_lt_zero, abs_pos, Ne, ← isZero_iff, ha]
  exact Bool.false_ne_true

theorem value_pos (ha : a.isZero = false) (h : a.negative = false) : 0 < a.value := by
  rw [value_eq_of_not_negative h, abs_pos, Ne, ← isZero_iff, ha]
  exact Bool.false_ne_true

theorem order_eq (hlt : a.significand < 2 ^ 128) (hlt' : b.significand < 2 ^ 128) :
    a.order b = compare a.value b.value := by
  have hzero {c : Exact} (h : c.isZero = true) : c.value = 0 := c.isZero_iff.mp h
  have hne {c : Exact} (h : c.isZero = false) : c.significand ≠ 0 := by simpa [isZero] using h
  rw [order]
  cases hx : a.isZero <;> cases hy : b.isZero
  case false.false =>
    cases hm : a.negative <;> cases hn : b.negative
    case false.false =>
      rw [value_eq_of_not_negative hm, value_eq_of_not_negative hn]
      exact compareMagnitude_eq (hne hx) (hne hy) hlt hlt'
    case false.true =>
      exact (compare_gt_iff_gt.mpr ((value_neg hy hn).trans (value_pos hx hm))).symm
    case true.false =>
      exact (compare_lt_iff_lt.mpr ((value_neg hx hm).trans (value_pos hy hn))).symm
    case true.true =>
      have hanti : StrictAnti fun q : ℚ => -q := fun _ _ h => neg_lt_neg h
      rw [value_eq_of_negative hm, value_eq_of_negative hn]
      simp only [compareMagnitude_eq (hne hx) (hne hy) hlt hlt']
      rw [← cmp_eq_compare, ← cmp_eq_compare, cmp_swap, hanti.cmp_map_eq]
  case false.true =>
    rw [hzero hy]
    cases hm : a.negative
    · exact (compare_gt_iff_gt.mpr (value_pos hx hm)).symm
    · exact (compare_lt_iff_lt.mpr (value_neg hx hm)).symm
  case true.false =>
    rw [hzero hx]
    cases hn : b.negative
    · exact (compare_lt_iff_lt.mpr (value_pos hy hn)).symm
    · exact (compare_gt_iff_gt.mpr (value_neg hy hn)).symm
  case true.true =>
    rw [hzero hx, hzero hy]
    exact (compare_eq_iff_eq.mpr rfl).symm

end Exact

inductive IeeeValue.Stands : IeeeValue → EReal → Prop
  | number {u : IeeeValue} {negative : Bool} {x : ℚ} (is : u.Is negative x) :
      Stands u ((x : ℝ) : EReal)
  | infinity (negative : Bool) : Stands (.infinity negative) (if negative then ⊥ else ⊤)

theorem strictMono_ratCast : StrictMono fun x : ℚ => ((x : ℝ) : EReal) :=
  EReal.coe_strictMono.comp Rat.cast_strictMono

namespace IeeeValue

variable {u v : IeeeValue} {x y : EReal}

theorem order?_of_is {m n : Bool} {p q : ℚ} (hu : u.Is m p) (hv : v.Is n q) :
    u.order? v = some (compare p q) := by
  have horder := Exact.order_eq (hu.significand_lt.trans (by norm_num))
    (hv.significand_lt.trans (by norm_num))
  rw [hu.value_eq, hv.value_eq] at horder
  rw [← horder]
  cases hu <;> cases hv <;> rfl

theorem Stands.order?_eq (hu : u.Stands x) (hv : v.Stands y) :
    u.order? v = some (compare x y) := by
  cases hu with
  | number hp =>
    cases hv with
    | number hq =>
      rw [order?_of_is hp hq, ← cmp_eq_compare, ← cmp_eq_compare]
      exact congrArg some (strictMono_ratCast.cmp_map_eq _ _).symm
    | infinity n =>
      have horder : u.order? (.infinity n) = some (if n then .gt else .lt) := by
        cases hp <;> rfl
      rw [horder]
      cases n with
      | false => exact congrArg some (compare_lt_iff_lt.mpr (EReal.coe_lt_top _)).symm
      | true => exact congrArg some (compare_gt_iff_gt.mpr (EReal.bot_lt_coe _)).symm
  | infinity m =>
    cases hv with
    | number hq =>
      have horder : (IeeeValue.infinity m).order? v = some (if m then .lt else .gt) := by
        cases hq <;> rfl
      rw [horder]
      cases m with
      | false => exact congrArg some (compare_gt_iff_gt.mpr (EReal.coe_lt_top _)).symm
      | true => exact congrArg some (compare_lt_iff_lt.mpr (EReal.bot_lt_coe _)).symm
    | infinity n =>
      have hlt : compare (⊥ : EReal) ⊤ = .lt := compare_lt_iff_lt.mpr bot_lt_top
      have hgt : compare (⊤ : EReal) ⊥ = .gt := compare_gt_iff_gt.mpr bot_lt_top
      cases m <;> cases n <;> simp [order?, hlt, hgt]

theorem Stands.unique (h : u.Stands x) (h' : u.Stands y) : x = y := by
  cases h with
  | number hp =>
    cases h' with
    | number hq => rw [hp.value_eq.symm.trans hq.value_eq]
    | infinity => cases hp
  | infinity m =>
    cases h' with
    | number hq => cases hq
    | infinity => rfl

theorem IsOrdered.stands (h : u.IsOrdered) : ∃ x, u.Stands x := by
  cases h with
  | zero negative => exact ⟨_, .number (.zero negative)⟩
  | nonzero is => exact ⟨_, .number is⟩
  | infinity negative => exact ⟨_, .infinity negative⟩

theorem order?_notANumber (bits : Word) (u : IeeeValue) :
    u.order? (.notANumber bits) = none ∧ (notANumber bits).order? u = none := by
  cases u <;> exact ⟨rfl, rfl⟩

end IeeeValue

namespace IeeeContext

variable {ctx : IeeeContext} {a b reg : Word} {x y : EReal} {u v : IeeeValue}

inductive Reads (ctx : IeeeContext) (reg : Word) : EReal → Prop
  | number {negative : Bool} {x : ℚ} (admits : ctx.Admits .t reg negative x) :
      Reads ctx reg ((x : ℝ) : EReal)
  | infinity {negative : Bool} (image : IeeeFormat.t.IsInfinity reg negative) :
      Reads ctx reg (if negative then ⊥ else ⊤)

theorem Reads.operand (h : ctx.Reads reg x) : ∃ u, ctx.operand .t reg = .ok u ∧ u.Stands x := by
  cases h with
  | number admits =>
    obtain ⟨u, hu, his⟩ := operand_spec admits
    exact ⟨u, hu, .number his⟩
  | infinity image => exact ⟨_, operand_infinity image, .infinity _⟩

theorem Reads.not_isNaN (h : ctx.Reads reg x) : NotANumber.isNaN reg = false := by
  cases h with
  | number admits =>
    obtain ⟨y, image⟩ := admits.represents
    exact image.not_isNaN
  | infinity image => exact image.not_isNaN

theorem isNaN_or_reads (h : ¬ctx.Rejects .t reg) :
    (NotANumber.isNaN reg = true ∧ ∀ x, ¬ctx.Reads reg x) ∨
      NotANumber.isNaN reg = false ∧ ∃! x, ctx.Reads reg x := by
  have hunique {x y : EReal} (hx : ctx.Reads reg x) (hy : ctx.Reads reg y) : y = x := by
    obtain ⟨u, hu, hstands⟩ := hx.operand
    obtain ⟨v, hv, hstands'⟩ := hy.operand
    obtain rfl := Except.ok.inj (hu.symm.trans hv)
    exact hstands'.unique hstands
  obtain hrejects | ⟨u, -, htakes⟩ := operand_cases ctx (IeeeFormat.isImage_t reg)
  · exact absurd hrejects h
  cases htakes with
  | number admits =>
    have hreads := Reads.number admits
    exact .inr ⟨hreads.not_isNaN, _, hreads, fun y hy => hunique hreads hy⟩
  | infinity image =>
    have hreads : ctx.Reads reg _ := .infinity image
    exact .inr ⟨hreads.not_isNaN, _, hreads, fun y hy => hunique hreads hy⟩
  | notANumber nan => exact .inl ⟨nan, fun x hx => by simp [hx.not_isNaN] at nan⟩

structure ComparesExtended (ctx : IeeeContext) (relation : FloatRelation) (a b : Word)
    (r : FloatResult) : Prop where
  ordered : ∀ x y, ctx.Reads a x → ctx.Reads b y → r.Reports (relation.Relates x y)
  unordered : NotANumber.isNaN a = true ∨ NotANumber.isNaN b = true →
    r.Reports (relation = .unordered)
  invalid : r.flags.invalid = true ↔
    ((relation = .less ∨ relation = .lessEqual) ∧
      (NotANumber.isNaN a = true ∨ NotANumber.isNaN b = true)) ∨
    ((relation = .equal ∨ relation = .unordered) ∧
      (NotANumber.isSignaling a = true ∨ NotANumber.isSignaling b = true))
  silent : r.flags = if r.flags.invalid then .ofInvalid else .none

theorem compare_eq (hu : ctx.operand .t a = .ok u) (hv : ctx.operand .t b = .ok v)
    (relation : FloatRelation) : ctx.compare relation a b =
      ⟨compareBits (relation.holds (u.order? v)),
        if (if relation.ordered then (u.order? v).isNone
          else NotANumber.isSignaling a || NotANumber.isSignaling b)
        then .ofInvalid else .none⟩ := by
  rw [compare, operands_eq_ok hu hv]

theorem order?_eq_none_iff (hu : ctx.Takes .t a u) (hv : ctx.Takes .t b v) :
    u.order? v = none ↔ NotANumber.isNaN a = true ∨ NotANumber.isNaN b = true := by
  cases ha : NotANumber.isNaN a with
  | true =>
    rw [hu.isNaN_iff.mp ha]
    exact iff_of_true (IeeeValue.order?_notANumber a v).2 (.inl rfl)
  | false =>
    cases hb : NotANumber.isNaN b with
    | true =>
      rw [hv.isNaN_iff.mp hb]
      exact iff_of_true (IeeeValue.order?_notANumber b u).1 (.inr rfl)
    | false =>
      obtain ⟨x, hx⟩ := (hu.isOrdered ha).stands
      obtain ⟨y, hy⟩ := (hv.isOrdered hb).stands
      rw [hx.order?_eq hy]
      simp

theorem compare_spec (ha : ¬ctx.Rejects .t a) (hb : ¬ctx.Rejects .t b) (relation : FloatRelation) :
    ctx.ComparesExtended relation a b (ctx.compare relation a b) := by
  obtain ⟨u, hu, htakes⟩ := (operand_cases ctx (IeeeFormat.isImage_t a)).resolve_left ha
  obtain ⟨v, hv, htakes'⟩ := (operand_cases ctx (IeeeFormat.isImage_t b)).resolve_left hb
  have hnone := order?_eq_none_iff htakes htakes'
  rw [compare_eq hu hv]
  refine ⟨?_, ?_, ?_, ?_⟩
  · intro x y hx hy
    obtain ⟨u', hu', hstands⟩ := hx.operand
    obtain ⟨v', hv', hstands'⟩ := hy.operand
    obtain rfl := Except.ok.inj (hu.symm.trans hu')
    obtain rfl := Except.ok.inj (hv.symm.trans hv')
    rw [hstands.order?_eq hstands']
    exact reports_compareBits (relation.holds_compare x y) _
  · intro hnan
    rw [hnone.mpr hnan]
    refine reports_compareBits ?_ _
    cases relation <;> simp [FloatRelation.holds]
  · rw [FloatFlags.invalid_ofInvalid, ← hnone]
    cases relation <;> simp [FloatRelation.ordered]
  · simp only [FloatFlags.invalid_ofInvalid]

theorem compare_trichotomy (ha : ¬ctx.Rejects .t a) (hb : ¬ctx.Rejects .t b)
    (hna : NotANumber.isNaN a = false) (hnb : NotANumber.isNaN b = false) :
    [ctx.compare .less a b, ctx.compare .equal a b, ctx.compare .less b a].countP
      (·.bits == compareTrue) = 1 := by
  obtain ⟨x, hx, -⟩ := ((isNaN_or_reads ha).resolve_left fun h => by simp [hna] at h).2
  obtain ⟨y, hy, -⟩ := ((isNaN_or_reads hb).resolve_left fun h => by simp [hnb] at h).2
  have hless := ((compare_spec ha hb .less).ordered x y hx hy).yes
  have hequal := ((compare_spec ha hb .equal).ordered x y hx hy).yes
  have hgreater := ((compare_spec hb ha .less).ordered y x hy hx).yes
  simp only [FloatRelation.Relates] at hless hequal hgreater
  simp only [List.countP_cons, List.countP_nil, beq_iff_eq, hless, hequal, hgreater]
  rcases lt_trichotomy x y with h | rfl | h
  · simp [h, h.ne, h.not_gt]
  · simp
  · simp [h, h.ne', h.not_gt]

theorem compare_of_rejects (h : ctx.Rejects .t a ∨ ctx.Rejects .t b) (relation : FloatRelation) :
    ctx.compare relation a b = invalid := by
  rw [compare, operands_of_rejects (IeeeFormat.isImage_t a) h]

theorem compare_bits (ha : ¬ctx.Rejects .t a) (hb : ¬ctx.Rejects .t b) (relation : FloatRelation) :
    (ctx.compare relation a b).bits = compareTrue ∨ (ctx.compare relation a b).bits = 0 := by
  obtain ⟨u, hu, -⟩ := (operand_cases ctx (IeeeFormat.isImage_t a)).resolve_left ha
  obtain ⟨v, hv, -⟩ := (operand_cases ctx (IeeeFormat.isImage_t b)).resolve_left hb
  rw [compare_eq hu hv]
  simp only [compareBits]
  split_ifs
  · exact .inl rfl
  · exact .inr rfl

end IeeeContext

theorem Vax.compare_spec {a b : Word} {x y : ℚ} (ha : VaxFormat.g.number? a = some x)
    (hb : VaxFormat.g.number? b = some y) (relation : FloatRelation) :
    ∃ r, Vax.compare relation a b = .ok r ∧ r.Reports (relation.Relates x y) ∧ r.flags = .none := by
  have hread := VaxFormat.g.unpack_spec a
  have hread' := VaxFormat.g.unpack_spec b
  rw [ha] at hread
  rw [hb] at hread'
  obtain ⟨v, hv, rfl, hlt⟩ := hread
  obtain ⟨w, hw, rfl, hlt'⟩ := hread'
  have horder := Exact.order_eq (hlt.trans (by norm_num)) (hlt'.trans (by norm_num))
  refine ⟨⟨compareBits (relation.holds (some (v.order w))), .none⟩, ?_, ?_, rfl⟩
  · simp [Vax.compare, hv, hw, bind, Except.bind, pure, Except.pure]
  · rw [horder]
    exact reports_compareBits (relation.holds_compare v.value w.value) _

end EV6
