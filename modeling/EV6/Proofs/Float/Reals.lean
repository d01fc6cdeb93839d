import EV6.Proofs.Float.Rounding
import Mathlib.Algebra.Order.Archimedean.Real.Basic
/-!
Rounding of real numbers, by the rules for rational ones. Real numbers between the same neighbouring
multiples of a small enough power of two are rounded to the same number, and not to themselves.
-/

namespace EV6.Rounding

noncomputable def nearestReal (x : ℝ) (tie : ℤ) : ℤ :=
  if Int.fract x < 1 / 2 then ⌊x⌋ else if 1 / 2 < Int.fract x then ⌈x⌉ else tie

noncomputable def toIntReal (r : Rounding) (x : ℝ) : ℤ :=
  match r with
  | chopped => if 0 ≤ x then ⌊x⌋ else ⌈x⌉
  | minusInfinity => ⌊x⌋
  | plusInfinity => ⌈x⌉
  | nearestEven => nearestReal x (if ⌊x⌋ % 2 = 0 then ⌊x⌋ else ⌈x⌉)
  | nearestAway => nearestReal x (if 0 ≤ x then ⌈x⌉ else ⌊x⌋)

noncomputable def toPrecisionReal (r : Rounding) (precision : ℕ) (x : ℝ) : ℝ :=
  let lsb := Int.log 2 |x| - precision + 1
  r.toIntReal (x / 2 ^ lsb) * 2 ^ lsb

theorem nearestReal_ratCast (x : ℚ) (tie : ℤ) : nearestReal x tie = nearest x tie := by
  have hfract : Int.fract (x : ℝ) = (Int.fract x : ℚ) := by
    rw [Int.fract, Int.fract, Rat.floor_cast, Rat.cast_sub, Rat.cast_intCast]
  have hhalf : (1 / 2 : ℝ) = (1 / 2 : ℚ) := by norm_num
  rw [nearestReal, nearest, hfract, hhalf, Rat.floor_cast, Rat.ceil_cast]
  simp only [Rat.cast_lt]

theorem toIntReal_ratCast (r : Rounding) (x : ℚ) : r.toIntReal x = r.toInt x := by
  cases r <;>
    simp only [toIntReal, toInt, nearestReal_ratCast, Rat.floor_cast, Rat.ceil_cast, Rat.cast_nonneg]

theorem log_eq_of_between {x : ℝ} {k : ℤ} (hlo : 2 ^ k ≤ x) (hhi : x < 2 ^ (k + 1)) :
    Int.log 2 x = k := by
  have hpos : 0 < x := (zpow_pos two_pos k).trans_le hlo
  have hle : k ≤ Int.log 2 x := (Int.zpow_le_iff_le_log one_lt_two hpos).mp hlo
  have hlt : Int.log 2 x < k + 1 :=
    (Int.lt_zpow_iff_log_lt one_lt_two hpos).mp (by exact_mod_cast hhi)
  omega

theorem log_ratCast {x : ℚ} (hx : x ≠ 0) : Int.log 2 |(x : ℝ)| = Int.log 2 |x| := by
  have hlo : (2 : ℚ) ^ Int.log 2 |x| ≤ |x| := Int.zpow_log_le_self one_lt_two (abs_pos.mpr hx)
  have hhi : |x| < (2 : ℚ) ^ (Int.log 2 |x| + 1) := Int.lt_zpow_succ_log_self one_lt_two |x|
  rw [← Rat.cast_abs]
  apply log_eq_of_between
  · simpa only [Rat.cast_zpow, Rat.cast_ofNat] using (Rat.cast_le (K := ℝ)).mpr hlo
  · simpa only [Rat.cast_zpow, Rat.cast_ofNat] using (Rat.cast_lt (K := ℝ)).mpr hhi

theorem toPrecisionReal_ratCast (r : Rounding) (precision : ℕ) {x : ℚ} (hx : x ≠ 0) :
    r.toPrecisionReal precision x = r.toPrecision precision x := by
  rw [toPrecisionReal, toPrecision, toGrid, lastBitOf, log_ratCast hx]
  rw [← toIntReal_ratCast]
  push_cast
  rfl

section Between

variable {j e : ℤ} {s precision : ℕ} {x y : ℝ}

theorem floor_of_between (hlo : j < 2 * x) (hhi : 2 * x < j + 1) :
    ⌊x⌋ = j / 2 ∧ ⌈x⌉ = j / 2 + 1 ∧ 2 * Int.fract x < (j % 2 : ℤ) + 1 ∧
      (j % 2 : ℤ) < 2 * Int.fract x := by
  have hj : (j : ℝ) = 2 * (j / 2 : ℤ) + (j % 2 : ℤ) := by
    exact_mod_cast (Int.mul_ediv_add_emod j 2).symm
  have hrem : (0 : ℝ) ≤ (j % 2 : ℤ) ∧ ((j % 2 : ℤ) : ℝ) ≤ 1 := by
    constructor
    · exact_mod_cast Int.emod_nonneg j two_ne_zero
    · exact_mod_cast Int.lt_add_one_iff.mp (Int.emod_lt_of_pos j two_pos)
  have hfloor : ⌊x⌋ = j / 2 := Int.floor_eq_iff.mpr ⟨by linarith, by linarith⟩
  have hceil : ⌈x⌉ = j / 2 + 1 := by
    refine Int.ceil_eq_iff.mpr ⟨?_, ?_⟩ <;> push_cast <;> linarith
  rw [Int.fract, hfloor]
  exact ⟨rfl, hceil, by linarith, by linarith⟩

theorem toIntReal_of_between (r : Rounding) (hlo : j < 2 * x) (hhi : 2 * x < j + 1) :
    r.toIntReal x =
      match r with
      | chopped => if 0 ≤ j then j / 2 else j / 2 + 1
      | minusInfinity => j / 2
      | plusInfinity => j / 2 + 1
      | nearestEven | nearestAway => (j + 1) / 2 := by
  obtain ⟨hfloor, hceil, hbelow, habove⟩ := floor_of_between hlo hhi
  have hsign : 0 ≤ x ↔ 0 ≤ j := by
    constructor
    · intro hx
      have hj : (-1 : ℝ) < j := by linarith
      exact_mod_cast hj
    · intro hj
      have hj' : (0 : ℝ) ≤ j := by exact_mod_cast hj
      linarith
  have hnearest (tie : ℤ) : nearestReal x tie = (j + 1) / 2 := by
    rw [nearestReal, hfloor, hceil]
    rcases Int.emod_two_eq j with hj | hj
    · rw [hj, Int.cast_zero, zero_add] at hbelow
      rw [if_pos (by linarith)]
      omega
    · rw [hj, Int.cast_one] at habove
      rw [if_neg (by linarith), if_pos (by linarith)]
      omega
  cases r <;> simp only [toIntReal, hnearest, hfloor, hceil, hsign]

theorem zpow_add_natCast (e : ℤ) (n : ℕ) : (2 : ℝ) ^ (e + n) = 2 ^ e * 2 ^ n := by
  rw [zpow_add₀ two_ne_zero, zpow_natCast]

theorem log_of_between (hs : s ≠ 0) (hlo : s * 2 ^ e < x) (hhi : x < (s + 1) * 2 ^ e) :
    Int.log 2 |x| = e + s.log2 := by
  have hpow : (0 : ℝ) < 2 ^ e := zpow_pos two_pos e
  have hpos : 0 < x := (mul_nonneg s.cast_nonneg hpow.le).trans_lt hlo
  have hlow : (2 : ℝ) ^ s.log2 ≤ s := by exact_mod_cast Nat.log2_self_le hs
  have hhigh : (s : ℝ) + 1 ≤ 2 ^ (s.log2 + 1) := by exact_mod_cast Nat.lt_log2_self (n := s)
  rw [abs_of_pos hpos]
  apply log_eq_of_between
  · rw [zpow_add_natCast, mul_comm]
    exact (mul_le_mul_of_nonneg_right hlow hpow.le).trans hlo.le
  · rw [add_assoc, ← Nat.cast_add_one, zpow_add_natCast, mul_comm]
    exact hhi.trans_le (mul_le_mul_of_nonneg_right hhigh hpow.le)

theorem lastBit_of_between (hs : 2 ^ precision ≤ s) (hlo : s * 2 ^ e < x)
    (hhi : x < (s + 1) * 2 ^ e) :
    Int.log 2 |x| - precision + 1 = e + (s.log2 - precision + 1 : ℕ) := by
  have hne : s ≠ 0 := ((Nat.two_pow_pos precision).trans_le hs).ne'
  have hle : precision ≤ s.log2 := (Nat.le_log2 hne).mpr hs
  rw [log_of_between hne hlo hhi]
  omega

theorem scaled_between (n : ℕ) (hlo : s * 2 ^ e < x) (hhi : x < (s + 1) * 2 ^ e) :
    ((s / 2 ^ n : ℕ) : ℤ) < 2 * (x / 2 ^ (e + (n + 1 : ℕ))) ∧
      2 * (x / 2 ^ (e + (n + 1 : ℕ))) < ((s / 2 ^ n : ℕ) : ℤ) + 1 := by
  have hpow : (0 : ℝ) < 2 ^ e := zpow_pos two_pos e
  have hscale : (0 : ℝ) < 2 ^ e * 2 ^ n := mul_pos hpow (by positivity)
  have hlow : ((s / 2 ^ n : ℕ) : ℝ) * 2 ^ n ≤ s := by exact_mod_cast Nat.div_mul_le_self s (2 ^ n)
  have hhigh : (s : ℝ) + 1 ≤ ((s / 2 ^ n : ℕ) + 1) * 2 ^ n := by
    have hlt : s < (s / 2 ^ n + 1) * 2 ^ n := by
      rw [mul_comm]
      exact Nat.lt_mul_div_succ s (Nat.two_pow_pos n)
    exact_mod_cast hlt
  have heq : 2 * (x / 2 ^ (e + (n + 1 : ℕ))) = x / (2 ^ e * 2 ^ n) := by
    rw [zpow_add_natCast, pow_succ]
    field_simp
  rw [heq, lt_div_iff₀ hscale, div_lt_iff₀ hscale, Int.cast_natCast]
  constructor
  · calc ((s / 2 ^ n : ℕ) : ℝ) * (2 ^ e * 2 ^ n) = (s / 2 ^ n : ℕ) * 2 ^ n * 2 ^ e := by ring
      _ ≤ s * 2 ^ e := mul_le_mul_of_nonneg_right hlow hpow.le
      _ < x := hlo
  · calc x < (s + 1) * 2 ^ e := hhi
      _ ≤ ((s / 2 ^ n : ℕ) + 1) * 2 ^ n * 2 ^ e := mul_le_mul_of_nonneg_right hhigh hpow.le
      _ = ((s / 2 ^ n : ℕ) + 1) * (2 ^ e * 2 ^ n) := by ring

theorem toPrecisionReal_eq_of_between (r : Rounding) (hs : 2 ^ precision ≤ s)
    (hlo : s * 2 ^ e < x) (hhi : x < (s + 1) * 2 ^ e) (hlo' : s * 2 ^ e < y)
    (hhi' : y < (s + 1) * 2 ^ e) : r.toPrecisionReal precision x = r.toPrecisionReal precision y := by
  obtain ⟨hx, hx'⟩ := scaled_between (s.log2 - precision) hlo hhi
  obtain ⟨hy, hy'⟩ := scaled_between (s.log2 - precision) hlo' hhi'
  simp only [toPrecisionReal, lastBit_of_between hs hlo hhi, lastBit_of_between hs hlo' hhi']
  rw [toIntReal_of_between r hx hx', toIntReal_of_between r hy hy']

theorem toPrecisionReal_ne_of_between (r : Rounding) (hs : 2 ^ precision ≤ s)
    (hlo : s * 2 ^ e < x) (hhi : x < (s + 1) * 2 ^ e) : r.toPrecisionReal precision x ≠ x := by
  intro heq
  have hpow : (0 : ℝ) < 2 ^ e := zpow_pos two_pos e
  simp only [toPrecisionReal, lastBit_of_between hs hlo hhi] at heq
  generalize s.log2 - precision + 1 = n at heq
  generalize r.toIntReal _ = k at heq
  rw [zpow_add_natCast, mul_comm ((2 : ℝ) ^ e), ← mul_assoc] at heq
  rw [← heq, mul_lt_mul_iff_left₀ hpow] at hlo hhi
  have hlo' : (s : ℤ) < k * 2 ^ n := by exact_mod_cast hlo
  have hhi' : k * 2 ^ n < (s : ℤ) + 1 := by exact_mod_cast hhi
  omega

end Between

end EV6.Rounding
