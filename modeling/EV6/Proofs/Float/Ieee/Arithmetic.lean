import EV6.Float.Ieee.Arithmetic
import EV6.Proofs.Float.Arithmetic
import EV6.Proofs.Float.Ieee.Operand
import EV6.Proofs.Float.Rounded

namespace EV6

def Rounding.LeavesRange : Rounding → ℚ → Prop
  | chopped, _ => False
  | minusInfinity, x => x < 0
  | plusInfinity, x => 0 < x
  | nearestEven, _ | nearestAway, _ => True

namespace IeeeContext

inductive Admits (ctx : IeeeContext) (format : IeeeFormat) (reg : Word) (negative : Bool) : ℚ → Prop
  | normal {x : ℚ} (image : format.Represents reg negative x)
      (large : x = 0 ∨ 2 ^ format.limits.emin ≤ |x|) : Admits ctx format reg negative x
  | denormal {x : ℚ} (image : format.Represents reg negative x)
      (small : |x| < 2 ^ format.limits.emin) (software : ctx.traps.software = true)
      (kept : ctx.control.denormalsToZero = false) : Admits ctx format reg negative x
  | flushed {x : ℚ} (image : format.Represents reg negative x)
      (small : |x| < 2 ^ format.limits.emin) (flush : ctx.control.denormalsToZero = true) :
      Admits ctx format reg negative 0

inductive Delivers (ctx : IeeeContext) (format : IeeeFormat) (x : ℚ) : FloatResult → Prop
  | denormal {y : ℚ} {bits : Word} (tiny : |x| < 2 ^ format.limits.emin)
      (software : ctx.traps.software = true) (kept : ctx.control.underflowToZero = false)
      (rounded : y = ctx.rounding.toGrid (format.limits.emin - format.limits.precision + 1) x)
      (image : format.Represents bits (decide (x < 0)) y) :
      Delivers ctx format x ⟨bits, { FloatFlags.none with
        underflow := decide (y ≠ x) || ctx.traps.underflow
        inexact := decide (y ≠ x) }⟩
  | flushed {bits : Word} (tiny : |x| < 2 ^ format.limits.emin)
      (flush : ctx.traps.software = false ∨ ctx.control.underflowToZero = true)
      (image : format.Represents bits (decide (x < 0)) 0) :
      Delivers ctx format x ⟨bits, { FloatFlags.none with underflow := true, inexact := true }⟩
  | rounded {y : ℚ} {bits : Word} (large : 2 ^ format.limits.emin ≤ |x|)
      (rounded : y = ctx.rounding.toPrecision format.limits.precision x)
      (fits : |y| ≤ format.largest) (image : format.Represents bits (decide (x < 0)) y) :
      Delivers ctx format x ⟨bits, .ofInexact (decide (y ≠ x))⟩
  | infinite {bits : Word} (large : 2 ^ format.limits.emin ≤ |x|)
      (above : format.largest < |ctx.rounding.toPrecision format.limits.precision x|)
      (leaves : ctx.rounding.LeavesRange x)
      (image : format.HasFields bits (decide (x < 0)) format.maxExponent 0) :
      Delivers ctx format x ⟨bits, { FloatFlags.none with overflow := true, inexact := true }⟩
  | largest {bits : Word} (large : 2 ^ format.limits.emin ≤ |x|)
      (above : format.largest < |ctx.rounding.toPrecision format.limits.precision x|)
      (stays : ¬ctx.rounding.LeavesRange x)
      (image : format.Represents bits (decide (x < 0)) (signed (decide (x < 0)) format.largest)) :
      Delivers ctx format x ⟨bits, { FloatFlags.none with overflow := true, inexact := true }⟩

def SumsToMinusZero (ctx : IeeeContext) (m : Bool) (x : ℚ) (n : Bool) (y : ℚ) : Prop :=
  (x = 0 ∧ m = true) ∧ (y = 0 ∧ n = true) ∨
    ¬(x = 0 ∧ y = 0 ∧ m = n) ∧ ctx.rounding = .minusInfinity

inductive DeliversSum (ctx : IeeeContext) (format : IeeeFormat) (m : Bool) (x : ℚ) (n : Bool)
    (y : ℚ) : FloatResult → Prop
  | zero {negative : Bool} {bits : Word} (exact : x + y = 0)
      (sign : negative = true ↔ ctx.SumsToMinusZero m x n y)
      (image : format.Represents bits negative 0) : DeliversSum ctx format m x n y ⟨bits, .none⟩
  | nonzero {r : FloatResult} (hne : x + y ≠ 0) (delivers : ctx.Delivers format (x + y) r) :
      DeliversSum ctx format m x n y r

variable {ctx : IeeeContext} {format : IeeeFormat} {a b : Word} {m n : Bool} {x y : ℚ}

theorem Delivers.unique {r s : FloatResult} (hr : ctx.Delivers format x r)
    (hs : ctx.Delivers format x s) : r = s := by
  cases hr with
  | denormal tiny software kept rounded image =>
    cases hs with
    | denormal _ _ _ rounded' image' =>
      obtain rfl := rounded.trans rounded'.symm
      rw [IeeeFormat.Represents.unique image image']
    | flushed _ flush => simp [software, kept] at flush
    | _ large => exact absurd tiny large.not_gt
  | flushed tiny flush image =>
    cases hs with
    | denormal _ software kept => simp [software, kept] at flush
    | flushed _ _ image' => rw [IeeeFormat.Represents.unique image image']
    | _ large => exact absurd tiny large.not_gt
  | rounded large rounded fits image =>
    cases hs with
    | denormal tiny => exact absurd tiny large.not_gt
    | flushed tiny => exact absurd tiny large.not_gt
    | rounded _ rounded' _ image' =>
      obtain rfl := rounded.trans rounded'.symm
      rw [IeeeFormat.Represents.unique image image']
    | infinite _ above => exact absurd above (rounded ▸ fits).not_gt
    | largest _ above => exact absurd above (rounded ▸ fits).not_gt
  | infinite large above leaves image =>
    cases hs with
    | denormal tiny => exact absurd tiny large.not_gt
    | flushed tiny => exact absurd tiny large.not_gt
    | rounded _ rounded fits => exact absurd above (rounded ▸ fits).not_gt
    | infinite _ _ _ image' => rw [IeeeFormat.HasFields.unique image image']
    | largest _ _ stays => exact absurd leaves stays
  | largest large above stays image =>
    cases hs with
    | denormal tiny => exact absurd tiny large.not_gt
    | flushed tiny => exact absurd tiny large.not_gt
    | rounded _ rounded fits => exact absurd above (rounded ▸ fits).not_gt
    | infinite _ _ leaves => exact absurd leaves stays
    | largest _ _ _ image' => rw [IeeeFormat.Represents.unique image image']

theorem DeliversSum.unique {r s : FloatResult} (hr : ctx.DeliversSum format m x n y r)
    (hs : ctx.DeliversSum format m x n y s) : r = s := by
  cases hr with
  | zero exact sign image =>
    cases hs with
    | zero _ sign' image' =>
      obtain rfl := Bool.eq_iff_iff.mpr (sign.trans sign'.symm)
      rw [IeeeFormat.Represents.unique image image']
    | nonzero hne => exact absurd exact hne
  | nonzero hne delivers =>
    cases hs with
    | zero exact => exact absurd exact hne
    | nonzero _ delivers' => exact delivers.unique delivers'

theorem Delivers.msb {r : FloatResult} (h : ctx.Delivers format x r) :
    r.bits.msb = decide (x < 0) := by
  cases h with
  | denormal _ _ _ _ image => exact IeeeFormat.Represents.msb image
  | flushed _ _ image => exact IeeeFormat.Represents.msb image
  | rounded _ _ _ image => exact IeeeFormat.Represents.msb image
  | infinite _ _ _ image => exact IeeeFormat.HasFields.msb image le_rfl (Nat.two_pow_pos _)
  | largest _ _ _ image => exact IeeeFormat.Represents.msb image

theorem Admits.negative_eq (h : ctx.Admits format a m x) (hx : x ≠ 0) : m = decide (x < 0) := by
  cases h with
  | normal image => exact IeeeFormat.Represents.negative_eq image hx
  | denormal image => exact IeeeFormat.Represents.negative_eq image hx
  | flushed => exact absurd rfl hx

theorem Admits.log_mem (h : ctx.Admits format a m x) (hx : x ≠ 0) :
    format.scale ≤ Int.log 2 |x| ∧ Int.log 2 |x| ≤ format.limits.emax := by
  cases h with
  | normal image => exact image.log_mem hx
  | denormal image => exact image.log_mem hx
  | flushed => exact absurd rfl hx

theorem operand_spec (h : ctx.Admits format a m x) :
    ∃ u, ctx.operand format a = .ok u ∧ u.Is m x := by
  rw [operand]
  cases h with
  | normal image large =>
    obtain ⟨hvalue, hdenormal⟩ := IeeeFormat.unpack_spec image
    have hnormal : ∀ v, format.unpack a ≠ .denormal v := by
      intro v hv
      obtain ⟨hne, hsmall⟩ := hdenormal.mp ⟨v, hv⟩
      exact large.elim hne hsmall.not_ge
    cases hv : format.unpack a with
    | denormal v => exact absurd hv (hnormal v)
    | _ => exact ⟨_, rfl, hv ▸ hvalue⟩
  | denormal image small software kept =>
    have hvalue := (IeeeFormat.unpack_spec image).1
    cases hv : format.unpack a with
    | denormal v =>
      rw [hv] at hvalue
      cases hvalue with
      | denormal _ hne hlt => exact ⟨.finite v, by simp [kept, software], .finite v hne hlt⟩
    | _ => exact ⟨_, rfl, hv ▸ hvalue⟩
  | @flushed z image small flush =>
    obtain ⟨hvalue, hdenormal⟩ := IeeeFormat.unpack_spec image
    by_cases hz : z = 0
    · subst hz
      cases hv : format.unpack a with
      | denormal v => exact absurd (hdenormal.mp ⟨v, hv⟩).1 (by simp)
      | _ => exact ⟨_, rfl, hv ▸ hvalue⟩
    · obtain ⟨v, hv⟩ := hdenormal.mpr ⟨hz, small⟩
      rw [hv] at hvalue ⊢
      cases hvalue with
      | denormal => exact ⟨.zero v.negative, by simp [flush], .zero _⟩

theorem abs_rounded_lt_of_tiny (rounding : Rounding) (tiny : |x| < 2 ^ format.limits.emin) :
    |format.limits.rounded rounding x| < 2 ^ (format.limits.emax + 1) := by
  obtain ⟨-, -, -, hdenormals⟩ := format.limits_eq
  have hmin : format.limits.emin < format.limits.emax + 1 := by cases format <;> decide
  refine lt_of_le_of_lt ?_ (zpow_lt_zpow_right₀ one_lt_two hmin)
  rw [FloatLimits.rounded_of_tiny rounding hdenormals tiny, format.scale_eq]
  rw [format.two_zpow_emin] at tiny ⊢
  exact_mod_cast rounding.abs_toGrid_le (n := 2 ^ format.fractionBits) (by exact_mod_cast tiny.le)

theorem underflowed_delivers {r : Rounded} (tiny : |x| < 2 ^ format.limits.emin)
    (hr : r.IsOf format.limits ctx.rounding x) (hnegative : r.value.negative = decide (x < 0)) :
    ctx.Delivers format x (ctx.underflowed format r) := by
  obtain ⟨-, -, -, hdenormals⟩ := format.limits_eq
  have hrounded := FloatLimits.rounded_of_tiny ctx.rounding hdenormals tiny
  rw [underflowed, hr.inexact, hnegative, hrounded]
  split_ifs with hkeeps
  · have himage := IeeeFormat.pack_spec hr.lt (hr.le_exponent hdenormals)
      (hr.value ▸ abs_rounded_lt_of_tiny ctx.rounding tiny)
    rw [hr.value, hnegative, hrounded] at himage
    simp only [Bool.and_eq_true, Bool.not_eq_true'] at hkeeps
    exact .denormal tiny hkeeps.1 hkeeps.2 rfl himage
  · refine .flushed tiny ?_ (format.zero_represents _)
    cases hsoftware : ctx.traps.software with
    | false => exact .inl rfl
    | true => exact .inr (by simpa [hsoftware] using hkeeps)

theorem overflowsToInfinity_iff (rounding : Rounding) (hx : x ≠ 0) :
    overflowsToInfinity rounding (decide (x < 0)) = true ↔ rounding.LeavesRange x := by
  cases rounding <;> simp [overflowsToInfinity, Rounding.LeavesRange, hx.symm.le_iff_lt]

theorem overflowed_delivers (hx : x ≠ 0) (large : 2 ^ format.limits.emin ≤ |x|)
    (above : format.largest < |ctx.rounding.toPrecision format.limits.precision x|) :
    ctx.Delivers format x (ctx.overflowed format (decide (x < 0))) := by
  rw [overflowed]
  split_ifs with hinfinite
  · exact .infinite large above ((overflowsToInfinity_iff _ hx).mp hinfinite)
      (format.infinity_hasFields _)
  · exact .largest large above (mt (overflowsToInfinity_iff _ hx).mpr hinfinite)
      (format.maxFinite_represents _)

theorem finish_delivers {t : Truncated} (h : t.Resolves x) (hx : x ≠ 0) :
    ctx.Delivers format x (ctx.finish format t) := by
  obtain ⟨hp, -, -, hdenormals⟩ := format.limits_eq
  obtain ⟨hr, hnegative⟩ := Exact.round_spec format.limits h (h.significand_ne_zero hx)
    (by omega) (by cases format <;> decide) ctx.rounding
  rw [h.negative_eq hx] at hnegative
  rw [finish, h.negative_eq hx]
  generalize t.value.round t.sticky format.limits ctx.rounding = r at hr hnegative ⊢
  have htiny := hr.tiny
  rw [hdenormals, if_pos rfl] at htiny
  simp only [hr.overflow, htiny, decide_eq_true_eq]
  by_cases tiny : |x| < 2 ^ format.limits.emin
  · rw [if_neg (abs_rounded_lt_of_tiny ctx.rounding tiny).not_ge, if_pos tiny]
    exact underflowed_delivers tiny hr hnegative
  · have large := not_lt.mp tiny
    have hrounded := format.limits.rounded_of_large ctx.rounding fun _ => large
    rw [if_neg tiny]
    split_ifs with hover
    · refine overflowed_delivers hx large ?_
      rw [← hrounded]
      exact format.largest_lt.trans_le hover
    · have himage := IeeeFormat.pack_spec hr.lt (hr.le_exponent hdenormals)
        (by rw [hr.value]; exact not_le.mp hover)
      rw [hr.value, hnegative, hrounded] at himage
      rw [hr.inexact, hrounded]
      exact .rounded large rfl (IeeeFormat.Represents.abs_le himage) himage

theorem exactZero_deliversSum {negative : Bool} (exact : x + y = 0)
    (sign : negative = true ↔ ctx.SumsToMinusZero m x n y) :
    ctx.DeliversSum format m x n y (exactZero negative) :=
  .zero exact sign (format.zero_represents negative)

theorem sum_delivers {v w : Exact} (hv : v.significand < 2 ^ 53) (hw : w.significand < 2 ^ 53)
    (hx : v.value = x) (hy : w.value = y) (hne : ¬(x = 0 ∧ y = 0)) :
    ctx.DeliversSum format m x n y
      (if (v.add w).value.isZero && !(v.add w).sticky then
        exactZero (ctx.rounding == .minusInfinity) else ctx.finish format (v.add w)) := by
  have h : (v.add w).Resolves (x + y) :=
    hx ▸ hy ▸ Exact.add_resolves (hv.trans (by norm_num)) (hw.trans (by norm_num))
  by_cases hsum : x + y = 0
  · rw [if_pos (h.isZero_iff.mpr hsum)]
    refine exactZero_deliversSum hsum ?_
    have hsign : ¬((x = 0 ∧ m = true) ∧ (y = 0 ∧ n = true)) := fun h => hne ⟨h.1.1, h.2.1⟩
    have hlike : ¬(x = 0 ∧ y = 0 ∧ m = n) := fun h => hne ⟨h.1, h.2.1⟩
    simp [SumsToMinusZero, hsign, hlike]
  · rw [if_neg (mt h.isZero_iff.mp hsum)]
    exact .nonzero hsum (finish_delivers h hsum)

theorem addValues_delivers {u v : IeeeValue} (hu : u.Is m x) (hv : v.Is n y) :
    ctx.DeliversSum format m x n y (ctx.addValues format u v) := by
  have hsum : ¬(x = 0 ∧ y = 0) → ctx.DeliversSum format m x n y _ :=
    sum_delivers hu.significand_lt hv.significand_lt hu.value_eq hv.value_eq
  by_cases hx : x = 0
  · by_cases hy : y = 0
    · rw [hu.of_eq_zero hx, hv.of_eq_zero hy]
      refine exactZero_deliversSum (by rw [hx, hy, add_zero]) ?_
      cases m <;> cases n <;> simp [SumsToMinusZero, hx, hy]
    · obtain ⟨w, rfl | rfl⟩ := hv.of_ne_zero hy <;> cases hu <;> exact hsum fun h => hy h.2
  · obtain ⟨w, rfl | rfl⟩ := hu.of_ne_zero hx <;> cases hv <;> exact hsum fun h => hx h.1

theorem nanBits?_eq {u : IeeeValue} (h : u.Is m x) : nanBits? u = none := by
  cases h <;> rfl

theorem nan?_eq_none {u v : IeeeValue} (hu : nanBits? u = none) (hv : nanBits? v = none) :
    nan? u v = none := by
  rw [nan?, hu, hv]
  rfl

theorem binary_eq (ha : ctx.Admits format a m x) (hb : ctx.Admits format b n y)
    (op : IeeeValue → IeeeValue → FloatResult) :
    ∃ u v, u.Is m x ∧ v.Is n y ∧ ctx.binary format a b op = op u v := by
  obtain ⟨u, hu, hx⟩ := operand_spec ha
  obtain ⟨v, hv, hy⟩ := operand_spec hb
  have hnan : nan? u v = none := nan?_eq_none (nanBits?_eq hx) (nanBits?_eq hy)
  refine ⟨u, v, hx, hy, ?_⟩
  simp [binary, operands, hu, hv, hnan, bind, Except.bind, pure, Except.pure]

theorem add_sub_correctly_rounded (ha : ctx.Admits format a m x) (hb : ctx.Admits format b n y) :
    ctx.DeliversSum format m x n y (ctx.add format a b) ∧
      ctx.DeliversSum format m x (!n) (-y) (ctx.sub format a b) := by
  obtain ⟨u, v, hu, hv, hadd⟩ := binary_eq ha hb (ctx.addValues format)
  obtain ⟨u', v', hu', hv', hsub⟩ := binary_eq ha hb fun x y => ctx.addValues format x y.negate
  rw [add, hadd, sub, hsub]
  exact ⟨addValues_delivers hu hv, addValues_delivers hu' hv'.negate⟩

def downward : IeeeContext := ⟨.minusInfinity, ⟨false, true, false⟩, .reset⟩

theorem downward_admits_one : downward.Admits .t 0x3FF0000000000000 false 1 := by
  refine .normal ⟨1023, 0, by decide, by decide, rfl, ?_⟩ (.inr ?_)
  · norm_num [signed, IeeeFormat.magnitude]
  · rw [abs_one]
    exact zpow_le_one_of_nonpos₀ one_le_two (by decide)

theorem downward_admits_least :
    downward.Admits .t 0x8000000000000001 true (-2 ^ (-1074 : ℤ)) := by
  refine .denormal ⟨0, 1, by decide, by decide, rfl, ?_⟩ ?_ rfl rfl
  · rw [IeeeFormat.magnitude_zero, show IeeeFormat.t.scale = -1074 from rfl]
    simp [signed]
  · rw [abs_neg, abs_of_pos (two_zpow_pos _)]
    exact zpow_lt_zpow_right₀ one_lt_two (by decide)

theorem one_and_least_rounded :
    (downward.Admits .t 0x3FF0000000000000 false 1 ∧
      downward.Admits .t 0x8000000000000001 true (-2 ^ (-1074 : ℤ))) ∧
    downward.DeliversSum .t false 1 true (-2 ^ (-1074 : ℤ))
      (downward.add .t 0x3FF0000000000000 0x8000000000000001) ∧
    downward.DeliversSum .t false 1 false (- -2 ^ (-1074 : ℤ))
      (downward.sub .t 0x3FF0000000000000 0x8000000000000001) :=
  ⟨⟨downward_admits_one, downward_admits_least⟩,
    add_sub_correctly_rounded downward_admits_one downward_admits_least⟩

example : downward.add .t 0x3FF0000000000000 0x8000000000000001 =
    ⟨0x3FEFFFFFFFFFFFFF, .ofInexact true⟩ := by
  decide +kernel

theorem mulValues_delivers {u v : IeeeValue} (hu : u.Is m x) (hv : v.Is n y) (hx : x ≠ 0)
    (hy : y ≠ 0) : ctx.Delivers format (x * y) (ctx.mulValues format u v) := by
  have h := Exact.mul_resolves (hu.significand_lt.trans (by norm_num))
    (hv.significand_lt.trans (by norm_num))
  rw [hu.value_eq, hv.value_eq] at h
  have hproduct : ctx.Delivers format (x * y) _ := finish_delivers h (mul_ne_zero hx hy)
  obtain ⟨v, rfl | rfl⟩ := hu.of_ne_zero hx <;> obtain ⟨w, rfl | rfl⟩ := hv.of_ne_zero hy <;>
    exact hproduct

theorem divValues_delivers {u v : IeeeValue} (hu : u.Is m x) (hv : v.Is n y) (hx : x ≠ 0)
    (hy : y ≠ 0) : ctx.Delivers format (x / y) (ctx.divValues format u v) := by
  have h := Exact.div_resolves (hu.significand_lt.trans (by norm_num))
    (hv.significand_lt.trans (by norm_num))
  rw [hu.value_eq, hv.value_eq] at h
  have hquotient : ctx.Delivers format (x / y) _ := finish_delivers h (div_ne_zero hx hy)
  obtain ⟨v, rfl | rfl⟩ := hu.of_ne_zero hx <;> obtain ⟨w, rfl | rfl⟩ := hv.of_ne_zero hy <;>
    exact hquotient

theorem decide_mul_neg (hx : x ≠ 0) (hy : y ≠ 0) :
    decide (x * y < 0) = (decide (x < 0) != decide (y < 0)) := by
  rcases hx.lt_or_gt with h | h <;> rcases hy.lt_or_gt with h' | h' <;>
    simp [mul_neg_iff, h, h', h.not_gt, h'.not_gt]

theorem mul_div_correctly_rounded (ha : ctx.Admits format a m x) (hb : ctx.Admits format b n y)
    (hx : x ≠ 0) (hy : y ≠ 0) :
    (ctx.Delivers format (x * y) (ctx.mul format a b) ∧ (ctx.mul format a b).bits.msb = (m != n)) ∧
      ctx.Delivers format (x / y) (ctx.div format a b) ∧
        (ctx.div format a b).bits.msb = (m != n) := by
  obtain ⟨u, v, hu, hv, hmul⟩ := binary_eq ha hb (ctx.mulValues format)
  obtain ⟨u', v', hu', hv', hdiv⟩ := binary_eq ha hb (ctx.divValues format)
  have hproduct : ctx.Delivers format (x * y) _ := mulValues_delivers hu hv hx hy
  have hquotient : ctx.Delivers format (x / y) _ := divValues_delivers hu' hv' hx hy
  have hsign := decide_mul_neg hx (inv_ne_zero hy)
  rw [mul, hmul, div, hdiv]
  refine ⟨⟨hproduct, ?_⟩, hquotient, ?_⟩
  · rw [hproduct.msb, decide_mul_neg hx hy, ha.negative_eq hx, hb.negative_eq hy]
  · rw [hquotient.msb, div_eq_mul_inv, hsign, ha.negative_eq hx, hb.negative_eq hy]
    simp only [inv_lt_zero]

theorem least_denormals_rounded :
    (downward.Admits .t 0x8000000000000001 true (-2 ^ (-1074 : ℤ)) ∧
      (-2 ^ (-1074 : ℤ) : ℚ) ≠ 0) ∧
    (downward.Delivers .t (-2 ^ (-1074 : ℤ) * -2 ^ (-1074 : ℤ))
        (downward.mul .t 0x8000000000000001 0x8000000000000001) ∧
      (downward.mul .t 0x8000000000000001 0x8000000000000001).bits.msb = (true != true)) ∧
    downward.Delivers .t (-2 ^ (-1074 : ℤ) / -2 ^ (-1074 : ℤ))
        (downward.div .t 0x8000000000000001 0x8000000000000001) ∧
      (downward.div .t 0x8000000000000001 0x8000000000000001).bits.msb = (true != true) := by
  have hne : (-2 ^ (-1074 : ℤ) : ℚ) ≠ 0 := neg_ne_zero.mpr (two_zpow_pos _).ne'
  exact ⟨⟨downward_admits_least, hne⟩,
    mul_div_correctly_rounded downward_admits_least downward_admits_least hne hne⟩

end IeeeContext

end EV6
