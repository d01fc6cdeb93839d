import EV6.Integer.Bounded
import Mathlib.Tactic.LinearCombination
import Mathlib.Tactic.Ring

namespace EV6.Word

theorem toNat_lowHalf (a : Word) : (lowHalf a).toNat = a.toNat % 2 ^ 32 := by
  rw [lowHalf, BitVec.toNat_and]
  exact Nat.and_two_pow_sub_one_eq_mod a.toNat 32

theorem toNat_highHalf (a : Word) : (highHalf a).toNat = a.toNat / 2 ^ 32 := by
  rw [highHalf, BitVec.toNat_ushiftRight, Nat.shiftRight_eq_div_pow]

theorem lowHalf_lt (a : Word) : (lowHalf a).toNat < 2 ^ 32 := by
  rw [toNat_lowHalf]
  exact Nat.mod_lt _ (by decide)

theorem highHalf_lt (a : Word) : (highHalf a).toNat < 2 ^ 32 := by
  have := a.isLt
  rw [toNat_highHalf]
  omega

theorem toNat_eq_halves (a : Word) :
    a.toNat = (lowHalf a).toNat + 2 ^ 32 * (highHalf a).toNat := by
  rw [toNat_lowHalf, toNat_highHalf, Nat.mod_add_div]

theorem mul_lt_of_half {x y : Nat} (hx : x < 2 ^ 32) (hy : y < 2 ^ 32) : x * y < 2 ^ 64 :=
  calc x * y < 2 ^ 32 * 2 ^ 32 := Nat.mul_lt_mul'' hx hy
    _ = 2 ^ 64 := by decide

theorem toNat_mul_of_half {x y : Word} (hx : x.toNat < 2 ^ 32) (hy : y.toNat < 2 ^ 32) :
    (x * y).toNat = x.toNat * y.toNat := by
  rw [BitVec.toNat_mul, Nat.mod_eq_of_lt (mul_lt_of_half hx hy)]

theorem toNat_carry (sum addend : Word) :
    (carry sum addend).toNat = if sum.toNat < addend.toNat then 1 else 0 := by
  have hlt : sum < addend ↔ sum.toNat < addend.toNat := BitVec.lt_def
  by_cases h : sum < addend
  · simp [carry, ofBool, h, hlt.mp h]
  · simp [carry, ofBool, h, mt hlt.mpr h]

theorem add_carry (x y : Word) :
    (x + y).toNat + 2 ^ 64 * (carry (x + y) y).toNat = x.toNat + y.toNat := by
  have hx := x.isLt
  have hy := y.isLt
  rw [toNat_carry, BitVec.toNat_add]
  split <;> omega

theorem shiftLeft_add_ushiftRight (x : Word) :
    (x <<< 32).toNat + 2 ^ 64 * (x >>> 32).toNat = 2 ^ 32 * x.toNat := by
  rw [BitVec.toNat_shiftLeft, BitVec.toNat_ushiftRight, Nat.shiftLeft_eq, Nat.shiftRight_eq_div_pow]
  omega

theorem columns_eq (lowLow lowHigh highLow highHigh : Word) :
    let middle := lowLow + lowHigh <<< 32
    let low := middle + highLow <<< 32
    low.toNat + 2 ^ 64 * (highHigh.toNat + (lowHigh >>> 32).toNat + (highLow >>> 32).toNat
        + (carry middle (lowHigh <<< 32)).toNat + (carry low (highLow <<< 32)).toNat) =
      lowLow.toNat + 2 ^ 32 * lowHigh.toNat + 2 ^ 32 * highLow.toNat + 2 ^ 64 * highHigh.toNat := by
  intro middle low
  have hmiddle : middle.toNat + 2 ^ 64 * (carry middle (lowHigh <<< 32)).toNat =
    lowLow.toNat + (lowHigh <<< 32).toNat := add_carry lowLow (lowHigh <<< 32)
  have hlow : low.toNat + 2 ^ 64 * (carry low (highLow <<< 32)).toNat =
    middle.toNat + (highLow <<< 32).toNat := add_carry middle (highLow <<< 32)
  have hlowHigh := shiftLeft_add_ushiftRight lowHigh
  have hhighLow := shiftLeft_add_ushiftRight highLow
  omega

theorem partialProducts_eq (a b : Word) :
    (lowHalf a * lowHalf b).toNat + 2 ^ 32 * (lowHalf a * highHalf b).toNat
        + 2 ^ 32 * (highHalf a * lowHalf b).toNat + 2 ^ 64 * (highHalf a * highHalf b).toNat =
      a.toNat * b.toNat := by
  rw [toNat_mul_of_half (lowHalf_lt a) (lowHalf_lt b),
    toNat_mul_of_half (lowHalf_lt a) (highHalf_lt b),
    toNat_mul_of_half (highHalf_lt a) (lowHalf_lt b),
    toNat_mul_of_half (highHalf_lt a) (highHalf_lt b), toNat_eq_halves a, toNat_eq_halves b]
  ring

def highSum (a b : Word) : Nat :=
  let lowHigh := lowHalf a * highHalf b
  let highLow := highHalf a * lowHalf b
  let middle := lowHalf a * lowHalf b + lowHigh <<< 32
  let low := middle + highLow <<< 32
  (highHalf a * highHalf b).toNat + (lowHigh >>> 32).toNat + (highLow >>> 32).toNat
    + (carry middle (lowHigh <<< 32)).toNat + (carry low (highLow <<< 32)).toNat

theorem low_add_highSum (a b : Word) :
    (wideProduct a b).low.toNat + 2 ^ 64 * highSum a b = a.toNat * b.toNat :=
  (columns_eq _ _ _ _).trans (partialProducts_eq a b)

theorem highSum_lt (a b : Word) : highSum a b < 2 ^ 64 := by
  have hsum := low_add_highSum a b
  have hproduct : a.toNat * b.toNat < 2 ^ 64 * 2 ^ 64 := Nat.mul_lt_mul'' a.isLt b.isLt
  omega

theorem toNat_high (a b : Word) : (wideProduct a b).high.toNat = highSum a b := by
  have hlt := highSum_lt a b
  simp only [wideProduct, BitVec.toNat_add]
  simp only [highSum] at hlt ⊢
  omega

theorem toNat_wideProduct (a b : Word) :
    (wideProduct a b).low.toNat + 2 ^ 64 * (wideProduct a b).high.toNat = a.toNat * b.toNat := by
  rw [toNat_high, low_add_highSum]

theorem low_wideProduct (a b : Word) : (wideProduct a b).low = a * b := by
  have hproduct := toNat_wideProduct a b
  have hlow := (wideProduct a b).low.isLt
  apply BitVec.eq_of_toNat_eq
  rw [BitVec.toNat_mul]
  omega

theorem low_signedProduct (a b : Word) : (signedProduct a b).low = a * b := low_wideProduct a b

theorem toInt_eq_toNat_sub (a : Word) : a.toInt = a.toNat - 2 ^ 64 * a.msb.toNat := by
  rw [BitVec.toInt_eq_msb_cond]
  cases a.msb <;> rfl

def signedHigh (a b : Word) : Int :=
  (wideProduct a b).high.toNat - a.msb.toNat * b.toNat - b.msb.toNat * a.toNat
    + 2 ^ 64 * (a.msb.toNat * b.msb.toNat)

theorem toInt_mul_toInt (a b : Word) :
    a.toInt * b.toInt = (wideProduct a b).low.toNat + 2 ^ 64 * signedHigh a b := by
  have hproduct : ((wideProduct a b).low.toNat : Int) + 2 ^ 64 * (wideProduct a b).high.toNat =
    a.toNat * b.toNat := by exact_mod_cast toNat_wideProduct a b
  rw [signedHigh, toInt_eq_toNat_sub a, toInt_eq_toNat_sub b]
  linear_combination -hproduct

theorem signedHigh_mem (a b : Word) : -2 ^ 63 ≤ signedHigh a b ∧ signedHigh a b < 2 ^ 63 := by
  have hlow := (wideProduct a b).low.isLt
  have hproduct := toInt_mul_toInt a b
  have hle : a.toInt * b.toInt ≤ 2 ^ 126 := BitVec.toInt_mul_toInt_le
  have hge : -2 ^ 126 ≤ a.toInt * b.toInt := BitVec.le_toInt_mul_toInt
  omega

theorem toInt_correction (negative : Bool) (x : Word) :
    BitVec.toInt (if negative then x else 0) = (negative.toNat * x.toNat : Int).bmod (2 ^ 64) := by
  cases negative with
  | false =>
    rw [Bool.toNat_false, Nat.cast_zero, Int.zero_mul, Int.zero_bmod]
    rfl
  | true =>
    rw [Bool.toNat_true, Nat.cast_one, Int.one_mul]
    exact BitVec.toInt_eq_toNat_bmod x

theorem toInt_signed_high (a b : Word) :
    ((wideProduct a b).high - (if a.msb then b else 0) - (if b.msb then a else 0)).toInt =
      signedHigh a b := by
  obtain ⟨hge, hlt⟩ := signedHigh_mem a b
  have hcongr : ((wideProduct a b).high.toNat - a.msb.toNat * b.toNat - b.msb.toNat * a.toNat
      : Int).bmod (2 ^ 64) = signedHigh a b := by
    refine (Int.bmod_eq_iff (by decide)).mpr ⟨by omega, by omega, ?_⟩
    rw [signedHigh, add_sub_cancel_left]
    exact Int.dvd_mul_right _ _
  rw [← hcongr, BitVec.toInt_sub, BitVec.toInt_sub, toInt_correction, toInt_correction,
    BitVec.toInt_eq_toNat_bmod, ← Int.sub_bmod (wideProduct a b).high.toNat, ← Int.sub_bmod]

theorem overflow_eq_false_iff (a b : Word) :
    (signedProduct a b).overflow = false ↔
      -2 ^ 63 ≤ a.toInt * b.toInt ∧ a.toInt * b.toInt < 2 ^ 63 := by
  have hlow := (wideProduct a b).low.isLt
  have hproduct := toInt_mul_toInt a b
  rw [signedProduct, WideProduct.signed]
  dsimp only
  rw [bne_eq_false_iff_eq, ← BitVec.toInt_inj, toInt_signed_high]
  cases hmsb : (wideProduct a b).low.msb with
  | false =>
    have hsmall := BitVec.msb_eq_false_iff_two_mul_lt.mp hmsb
    rw [if_neg Bool.false_ne_true, show (0 : Word).toInt = 0 from rfl]
    omega
  | true =>
    have hlarge := BitVec.msb_eq_true_iff_two_mul_ge.mp hmsb
    rw [if_pos rfl, show (BitVec.allOnes 64).toInt = -1 from rfl]
    omega

theorem mul_toNat_eq_ok {x y : Word} (h : x.toNat * y.toNat < 2 ^ 64) :
    Machine.mul x.toNat y.toNat = .ok (x * y).toNat := by
  rw [Machine.mul_eq_ok_iff, BitVec.toNat_mul, Nat.mod_eq_of_lt h]
  exact ⟨rfl, h⟩

theorem add_eq_ok {x y : Nat} (h : x + y < 2 ^ 64) : Machine.add x y = .ok (x + y) :=
  Machine.add_eq_ok_iff.mpr ⟨rfl, h⟩

theorem carryInto_eq_ok {high : Nat} {sum addend : Word}
    (h : high + (carry sum addend).toNat < 2 ^ 64) :
    Bounded.carryInto high sum addend = .ok (high + (carry sum addend).toNat) := by
  rw [carry] at h ⊢
  unfold Bounded.carryInto
  split
  · rename_i hlt
    rw [decide_eq_true hlt] at h ⊢
    exact add_eq_ok h
  · rename_i hge
    rw [decide_eq_false hge]
    rfl

theorem bounded_wideProduct (a b : Word) : Bounded.wideProduct a b = .ok (wideProduct a b) := by
  have hlt := highSum_lt a b
  have hhigh : BitVec.ofNat 64 (highSum a b) = (wideProduct a b).high := by
    rw [← toNat_high, BitVec.ofNat_toNat, BitVec.setWidth_eq]
  simp only [highSum] at hlt hhigh
  unfold Bounded.wideProduct
  rw [mul_toNat_eq_ok (mul_lt_of_half (lowHalf_lt a) (lowHalf_lt b)),
    mul_toNat_eq_ok (mul_lt_of_half (lowHalf_lt a) (highHalf_lt b)),
    mul_toNat_eq_ok (mul_lt_of_half (highHalf_lt a) (lowHalf_lt b)),
    mul_toNat_eq_ok (mul_lt_of_half (highHalf_lt a) (highHalf_lt b))]
  simp only [bind, Except.bind, BitVec.ofNat_toNat, BitVec.setWidth_eq, ← BitVec.toNat_ushiftRight]
  -- no part of the sum exceeds the whole of it
  rw [add_eq_ok (by omega)]
  dsimp only
  rw [add_eq_ok (by omega)]
  dsimp only
  rw [carryInto_eq_ok (by omega)]
  dsimp only
  rw [carryInto_eq_ok (by omega)]
  dsimp only
  rw [hhigh]
  rfl

theorem product_exact (a b : Word) (bigEndian : Bool) :
    Bounded.wideProduct a b = .ok (wideProduct a b) ∧
      (wideProduct a b).low.toNat + 2 ^ 64 * (wideProduct a b).high.toNat = a.toNat * b.toNat ∧
      ∃ high, Integer.execute (.integer (.arithmetic .mulHigh)) a b bigEndian = .ok (some high) ∧
        Integer.Bounded.execute (.integer (.arithmetic .mulHigh)) a b bigEndian =
          .ok (.ok (some high)) ∧
        high.toNat = a.toNat * b.toNat / 2 ^ 64 := by
  have hproduct := toNat_wideProduct a b
  have hlow := (wideProduct a b).low.isLt
  have hhigh : (wideProduct a b).high.toNat = a.toNat * b.toNat / 2 ^ 64 := by omega
  refine ⟨bounded_wideProduct a b, hproduct, _, rfl, ?_, hhigh⟩
  rw [Integer.Bounded.execute, Integer.Bounded.arithmetic, bounded_wideProduct]
  rfl

end EV6.Word
