import EV6.Proofs.Float.Exact
import EV6.Proofs.Float.Reals
import Mathlib.Analysis.Real.Sqrt
import Mathlib.Tactic.LinearCombination
/-!
Roots of exact values. The digits found one after another are those of the integer root. What is kept of
a root, with its sticky bit, stands for a rational number that is rounded as the real root is.
-/

namespace EV6

/-- A rational number in the place of a real one: to `bits` bits or fewer both are rounded to the same
number, and to themselves together. -/
structure StandsFor (bits : ℕ) (q : ℚ) (x : ℝ) : Prop where
  rounded : ∀ (r : Rounding) (precision : ℕ), precision ≤ bits →
    r.toPrecisionReal precision x = (r.toPrecision precision q : ℚ)
  exact : ∀ (r : Rounding) (precision : ℕ), precision ≤ bits →
    (r.toPrecision precision q = q ↔ r.toPrecisionReal precision x = x)
  log_eq : Int.log 2 |x| = Int.log 2 |q|

theorem standsFor_ratCast (bits : ℕ) {q : ℚ} (hq : q ≠ 0) : StandsFor bits q q := by
  refine ⟨fun r precision _ => r.toPrecisionReal_ratCast precision hq, fun r precision _ => ?_,
    Rounding.log_ratCast hq⟩
  rw [r.toPrecisionReal_ratCast precision hq, Rat.cast_inj]

theorem standsFor_of_between {bits s : ℕ} {e : ℤ} {q : ℚ} {x : ℝ} (hs : 2 ^ bits ≤ s)
    (hq : s * 2 ^ e < (q : ℝ)) (hq' : (q : ℝ) < (s + 1) * 2 ^ e) (hx : s * 2 ^ e < x)
    (hx' : x < (s + 1) * 2 ^ e) : StandsFor bits q x := by
  have hne : q ≠ 0 := by
    rintro rfl
    have hnonneg : (0 : ℝ) ≤ s * 2 ^ e := mul_nonneg s.cast_nonneg (zpow_pos two_pos e).le
    rw [Rat.cast_zero] at hq
    linarith
  have hbits {precision : ℕ} (h : precision ≤ bits) : 2 ^ precision ≤ s :=
    (Nat.pow_le_pow_right two_pos h).trans hs
  refine ⟨fun r precision h => ?_, fun r precision h => ?_, ?_⟩
  · rw [← r.toPrecisionReal_ratCast precision hne]
    exact r.toPrecisionReal_eq_of_between (hbits h) hx hx' hq hq'
  · have hself := r.toPrecisionReal_ne_of_between (hbits h) hq hq'
    rw [r.toPrecisionReal_ratCast precision hne, Ne, Rat.cast_inj] at hself
    exact iff_of_false hself (r.toPrecisionReal_ne_of_between (hbits h) hx hx')
  · have hs0 : s ≠ 0 := ((Nat.two_pow_pos bits).trans_le hs).ne'
    rw [← Rounding.log_ratCast hne, Rounding.log_of_between hs0 hx hx',
      Rounding.log_of_between hs0 hq hq']

namespace Exact

/-- The digits `r` of a root, with `pairs` more to come, and what they leave of the value. -/
structure RootLeaves (value pairs r rem : ℕ) : Prop where
  eq : value = rem + r * r * 4 ^ pairs
  lt : value < (r + 1) * (r + 1) * 4 ^ pairs

namespace RootLeaves

variable {value pairs r rem : ℕ}

theorem start (h : value < 4 ^ pairs) : RootLeaves value pairs 0 value := ⟨by simp, by simpa using h⟩

theorem one (h : RootLeaves value (pairs + 1) r rem) (hdigit : r * 4 ^ (pairs + 1) + 4 ^ pairs ≤ rem) :
    RootLeaves value pairs (2 * r + 1) (rem - (r * 4 ^ (pairs + 1) + 4 ^ pairs)) := by
  have heq := h.eq
  constructor
  · rw [pow_succ] at heq hdigit ⊢
    zify [hdigit] at heq ⊢
    linear_combination heq
  · calc value < (r + 1) * (r + 1) * 4 ^ (pairs + 1) := h.lt
      _ = (2 * r + 1 + 1) * (2 * r + 1 + 1) * 4 ^ pairs := by ring

theorem zero (h : RootLeaves value (pairs + 1) r rem) (hdigit : rem < r * 4 ^ (pairs + 1) + 4 ^ pairs) :
    RootLeaves value pairs (2 * r) rem := by
  refine ⟨by rw [h.eq]; ring, ?_⟩
  calc value = rem + r * r * 4 ^ (pairs + 1) := h.eq
    _ < r * 4 ^ (pairs + 1) + 4 ^ pairs + r * r * 4 ^ (pairs + 1) := Nat.add_lt_add_right hdigit _
    _ = (2 * r + 1) * (2 * r + 1) * 4 ^ pairs := by ring

theorem eq_sqrt (h : RootLeaves value 0 r rem) : r = Nat.sqrt value := by
  obtain ⟨heq, hlt⟩ := h
  rw [pow_zero, mul_one] at heq hlt
  exact Nat.eq_sqrt.mpr ⟨by omega, hlt⟩

end RootLeaves

theorem root_div_two (pairs r : ℕ) : r * 4 ^ (pairs + 1) / 2 = 2 * r * 4 ^ pairs := by
  rw [show r * 4 ^ (pairs + 1) = 2 * (2 * r * 4 ^ pairs) by ring]
  exact Nat.mul_div_cancel_left _ two_pos

theorem root_div_two_add (pairs r : ℕ) :
    r * 4 ^ (pairs + 1) / 2 + 4 ^ pairs = (2 * r + 1) * 4 ^ pairs := by
  rw [root_div_two]
  ring

theorem rootDigits_eq_sqrt (pairs : ℕ) {value rem r : ℕ} (h : RootLeaves value pairs r rem) :
    rootDigits pairs rem (r * 4 ^ pairs) = Nat.sqrt value := by
  induction pairs generalizing rem r with
  | zero => rw [pow_zero, mul_one, rootDigits, h.eq_sqrt]
  | succ pairs ih =>
    have hbit : 1 <<< (2 * pairs) = 4 ^ pairs := by rw [Nat.one_shiftLeft, pow_mul]; rfl
    rw [rootDigits]
    simp only [hbit]
    split_ifs with hdigit
    · rw [root_div_two_add]
      exact ih (h.one hdigit)
    · rw [root_div_two]
      exact ih (h.zero (not_le.mp hdigit))

theorem lt_pow_significantPairs {value pairs : ℕ} (h : value < 4 ^ pairs) :
    value < 4 ^ significantPairs value pairs := by
  induction pairs with
  | zero => exact h
  | succ pairs ih =>
    rw [significantPairs, Nat.one_shiftLeft, pow_mul]
    split_ifs with hle
    · exact h
    · exact ih (not_le.mp hle)

theorem integerRoot_eq_sqrt {value : ℕ} (h : value < 2 ^ 128) :
    integerRoot value = Nat.sqrt value := by
  have hlt : value < 4 ^ significantPairs value 64 :=
    lt_pow_significantPairs (h.trans_eq (by norm_num))
  have hroot := rootDigits_eq_sqrt _ (.start hlt)
  rwa [zero_mul] at hroot

theorem exists_squareRoot_eq (a : Exact) (ha : a.significand ≠ 0) (hlt : a.significand < 2 ^ 125) :
    ∃ (s : ℕ) (k : ℤ), 2 ^ 124 ≤ s ∧ s < 2 ^ 126 ∧ |a.value| = s * 2 ^ (2 * k) ∧
      a.squareRoot = ⟨⟨false, k, Nat.sqrt s⟩, Nat.sqrt s * Nat.sqrt s != s⟩ := by
  have h := alignedTo_spec a 124 ha hlt
  rw [← h.value, abs_value, squareRoot, if_neg (by simpa [isZero] using ha)]
  have hlow := h.le
  have hhigh := h.lt
  generalize a.alignedTo 124 = x at hlow hhigh ⊢
  rcases Int.even_or_odd' x.exponent with ⟨k, hk | hk⟩
  · refine ⟨x.significand, k, hlow, by omega, by rw [hk], ?_⟩
    have heven : x.exponent % 2 = 0 := by omega
    have hdiv : x.exponent / 2 = k := by omega
    simp only [if_pos heven, hdiv, integerRoot_eq_sqrt (hhigh.trans (by norm_num))]
  · refine ⟨x.significand * 2, k, by omega, by omega, ?_, ?_⟩
    · rw [hk, zpow_add_one₀ two_ne_zero]
      push_cast
      ring
    · have hodd : ¬x.exponent % 2 = 0 := by omega
      have hdiv : (x.exponent - 1) / 2 = k := by omega
      have hs : x.significand * 2 < 2 ^ 128 := by omega
      simp only [if_neg hodd, hdiv, Nat.shiftLeft_eq, pow_one, integerRoot_eq_sqrt hs]

theorem sqrt_between (s : ℕ) (k : ℤ) :
    (Nat.sqrt s * Nat.sqrt s = s → √((s : ℝ) * 2 ^ (2 * k)) = Nat.sqrt s * 2 ^ k) ∧
    (Nat.sqrt s * Nat.sqrt s ≠ s → Nat.sqrt s * 2 ^ k < √((s : ℝ) * 2 ^ (2 * k))) ∧
      √((s : ℝ) * 2 ^ (2 * k)) < (Nat.sqrt s + 1) * 2 ^ k := by
  have hpow : (0 : ℝ) < 2 ^ k := zpow_pos two_pos k
  have hroot : √((s : ℝ) * 2 ^ (2 * k)) = √s * 2 ^ k := by
    rw [mul_comm 2 k, zpow_mul, zpow_ofNat, Real.sqrt_mul s.cast_nonneg, Real.sqrt_sq hpow.le]
  rw [hroot]
  refine ⟨fun hexact => ?_, fun hne => ?_, ?_⟩
  · have hsq : (s : ℝ) = Nat.sqrt s * Nat.sqrt s := by exact_mod_cast hexact.symm
    conv_lhs => rw [hsq, Real.sqrt_mul_self (Nat.cast_nonneg _)]
  · have hlt : Nat.sqrt s * Nat.sqrt s < s := lt_of_le_of_ne (Nat.sqrt_le s) hne
    refine mul_lt_mul_of_pos_right (Real.lt_sqrt_of_sq_lt ?_) hpow
    rw [pow_two]
    exact_mod_cast hlt
  · exact mul_lt_mul_of_pos_right Real.real_sqrt_lt_nat_sqrt_succ hpow

/-- A rational number that rounds as the root of `s * 2 ^ (2 * k)` does. -/
def rootStandIn (s : ℕ) (k : ℤ) : ℚ :=
  (Nat.sqrt s + if Nat.sqrt s * Nat.sqrt s = s then 0 else 1 / 2) * 2 ^ k

theorem rootStandIn_encloses (s : ℕ) (k : ℤ) :
    Encloses (Nat.sqrt s) k (Nat.sqrt s * Nat.sqrt s != s) (rootStandIn s k) := by
  refine ⟨if Nat.sqrt s * Nat.sqrt s = s then 0 else 1 / 2, ?_, ?_, ?_, rfl⟩ <;>
    split_ifs with hexact <;> norm_num [hexact]

theorem rootStandIn_standsFor {bits s : ℕ} (k : ℤ) (hs : s ≠ 0) (hbits : 2 ^ bits ≤ Nat.sqrt s) :
    StandsFor bits (rootStandIn s k) √((s : ℝ) * 2 ^ (2 * k)) := by
  have hpow : (0 : ℝ) < 2 ^ k := zpow_pos two_pos k
  obtain ⟨hexact, hlo, hhi⟩ := sqrt_between s k
  by_cases h : Nat.sqrt s * Nat.sqrt s = s
  · have hcast : √((s : ℝ) * 2 ^ (2 * k)) = (rootStandIn s k : ℚ) := by
      rw [hexact h, rootStandIn, if_pos h, add_zero]
      push_cast
      rfl
    rw [hcast]
    refine standsFor_ratCast bits (mul_pos ?_ (two_zpow_pos k)).ne'
    rw [if_pos h, add_zero, Nat.cast_pos, Nat.sqrt_pos]
    exact Nat.pos_of_ne_zero hs
  · have hcast : ((rootStandIn s k : ℚ) : ℝ) = (Nat.sqrt s + 1 / 2) * 2 ^ k := by
      rw [rootStandIn, if_neg h]
      push_cast
      rfl
    refine standsFor_of_between hbits ?_ ?_ (hlo h) hhi <;> rw [hcast] <;>
      exact mul_lt_mul_of_pos_right (by linarith) hpow

theorem exists_squareRoot_resolves (a : Exact) (ha : a.significand ≠ 0)
    (hlt : a.significand < 2 ^ 125) :
    ∃ q : ℚ, a.squareRoot.Resolves q ∧ StandsFor 62 q √(|a.value| : ℚ) ∧ 0 < q ∧
      Int.log 2 q = Int.log 2 |a.value| / 2 := by
  obtain ⟨s, k, hlow, hhigh, hvalue, hroot⟩ := exists_squareRoot_eq a ha hlt
  have hr : 2 ^ 62 ≤ Nat.sqrt s := Nat.le_sqrt.mpr (by omega)
  have hr' : Nat.sqrt s < 2 ^ 63 := Nat.sqrt_lt.mpr (by omega)
  have hencloses := rootStandIn_encloses s k
  have hpos : 0 < rootStandIn s k := mul_pos (by positivity) (two_zpow_pos k)
  have hlog : Int.log 2 (rootStandIn s k) = k + 62 := by
    have htop : (Nat.sqrt s).log2 = 62 := (Nat.log2_eq_iff (by omega)).mpr ⟨hr, hr'⟩
    rw [hencloses.log_eq (by omega), topBit, if_neg (by omega), htop]
    rfl
  have hlog' : Int.log 2 |a.value| = 2 * k + s.log2 := by
    have h : Encloses s (2 * k) false |a.value| :=
      ⟨0, le_rfl, one_pos, by simp, by rw [hvalue, add_zero]⟩
    rw [h.log_eq (by omega), topBit, if_neg (by omega)]
  have htop : s.log2 = 124 ∨ s.log2 = 125 := by
    have hle : 124 ≤ s.log2 := (Nat.le_log2 (by omega)).mpr hlow
    have hge : s.log2 < 126 := (Nat.log2_lt (by omega)).mpr hhigh
    omega
  refine ⟨rootStandIn s k, ?_, ?_, hpos, by omega⟩
  · rw [hroot]
    have hfits : Nat.sqrt s < 2 ^ 128 := by omega
    exact Truncated.resolves_signed (t := ⟨⟨false, k, Nat.sqrt s⟩, _⟩) hencloses hfits fun _ => hr
  · rw [hvalue]
    push_cast
    exact rootStandIn_standsFor k (by omega) hr

end Exact

end EV6
