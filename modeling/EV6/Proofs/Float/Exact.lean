import EV6.Proofs.Float.Rounding

namespace EV6

theorem two_zpow_pos (e : ℤ) : (0 : ℚ) < 2 ^ e := zpow_pos two_pos e

theorem two_zpow_add_nat (e : ℤ) (n : ℕ) : (2 : ℚ) ^ (e + n) = 2 ^ n * 2 ^ e := by
  rw [zpow_add₀ two_ne_zero, zpow_natCast, mul_comm]

structure Encloses (significand : ℕ) (exponent : ℤ) (sticky : Bool) (m : ℚ) : Prop where
  exists_excess : ∃ ε : ℚ, 0 ≤ ε ∧ ε < 1 ∧ (ε = 0 ↔ sticky = false) ∧
    m = (significand + ε) * 2 ^ exponent

theorem hidden_bit_mul (fraction bits : ℕ) (e : ℤ) :
    (1 + fraction / 2 ^ bits : ℚ) * 2 ^ e = (fraction + 2 ^ bits : ℕ) * 2 ^ (e - bits) := by
  rw [zpow_sub₀ two_ne_zero, zpow_natCast]
  push_cast
  field_simp
  ring

theorem lt_two_zpow_iff {m : ℚ} (h : 0 < m) (k : ℤ) : m < 2 ^ k ↔ Int.log 2 m < k := by
  exact_mod_cast Int.lt_zpow_iff_log_lt one_lt_two h

theorem log_eq_of_le_of_lt {m : ℚ} {k : ℤ} (hlo : 2 ^ k ≤ m) (hhi : m < 2 ^ (k + 1)) : Int.log 2 m = k := by
  have hpos : 0 < m := (two_zpow_pos k).trans_le hlo
  have hle : k ≤ Int.log 2 m := (Int.zpow_le_iff_le_log one_lt_two hpos).mp hlo
  have hlt : Int.log 2 m < k + 1 := (lt_two_zpow_iff hpos _).mp hhi
  omega

theorem log_significand {fraction bits : ℕ} (h : fraction < 2 ^ bits) (e : ℤ) :
    Int.log 2 (((fraction + 2 ^ bits : ℕ) : ℚ) * 2 ^ e) = e + bits := by
  have hlt : (fraction : ℚ) < 2 ^ bits := by exact_mod_cast h
  apply log_eq_of_le_of_lt
  · rw [two_zpow_add_nat]
    refine mul_le_mul_of_nonneg_right ?_ (two_zpow_pos _).le
    push_cast
    linarith [Nat.cast_nonneg (α := ℚ) fraction]
  · rw [zpow_add_one₀ two_ne_zero, two_zpow_add_nat, mul_right_comm]
    refine mul_lt_mul_of_pos_right ?_ (two_zpow_pos _)
    push_cast
    linarith

theorem significand_inj {fraction fraction' bits : ℕ} {e e' : ℤ} (h : fraction < 2 ^ bits)
    (h' : fraction' < 2 ^ bits)
    (heq : ((fraction + 2 ^ bits : ℕ) : ℚ) * 2 ^ e = (fraction' + 2 ^ bits : ℕ) * 2 ^ e') :
    e = e' ∧ fraction = fraction' := by
  have hlog := log_significand h e
  rw [heq, log_significand h'] at hlog
  obtain rfl : e = e' := by omega
  rw [mul_left_inj' (two_zpow_pos _).ne'] at heq
  exact ⟨rfl, by simpa using heq⟩

theorem Rounding.toPrecision_significand (r : Rounding) (negative : Bool) {fraction bits : ℕ}
    (h : fraction < 2 ^ bits) (e : ℤ) :
    r.toPrecision (bits + 1) (signed negative (((fraction + 2 ^ bits : ℕ) : ℚ) * 2 ^ e)) =
      signed negative (((fraction + 2 ^ bits : ℕ) : ℚ) * 2 ^ e) := by
  have hlast : lastBitOf (bits + 1) (signed negative (((fraction + 2 ^ bits : ℕ) : ℚ) * 2 ^ e)) =
      e := by
    rw [lastBitOf, abs_signed _ (mul_nonneg (Nat.cast_nonneg _) (two_zpow_pos e).le),
      log_significand h]
    push_cast
    ring
  rw [toPrecision, toGrid, hlast, signed_mul, mul_div_cancel_right₀ _ (two_zpow_pos e).ne',
    signed_natCast, toInt_intCast]

theorem Rounding.toPrecision_mem (r : Rounding) {precision : ℕ} {q : ℚ} (hp : 0 < precision)
    (hq : 0 < q) :
    2 ^ Int.log 2 q ≤ |r.toPrecision precision q| ∧
      |r.toPrecision precision q| ≤ 2 ^ (Int.log 2 q + 1) := by
  obtain ⟨p, rfl⟩ : ∃ p, precision = p + 1 := ⟨precision - 1, by omega⟩
  have hlast : lastBitOf (p + 1) q = Int.log 2 q - p := by
    rw [lastBitOf, abs_of_pos hq]
    push_cast
    ring
  have hlow : (2 : ℚ) ^ Int.log 2 q = (2 ^ p : ℤ) * 2 ^ (Int.log 2 q - p) := by
    push_cast
    rw [← two_zpow_add_nat, sub_add_cancel]
  have hhigh : (2 : ℚ) ^ (Int.log 2 q + 1) = (2 ^ (p + 1) : ℕ) * 2 ^ (Int.log 2 q - p) := by
    push_cast
    rw [← two_zpow_add_nat]
    congr 1
    push_cast
    ring
  have hle : (2 : ℚ) ^ Int.log 2 q ≤ q := Int.zpow_log_le_self one_lt_two hq
  have hlt : q < (2 : ℚ) ^ (Int.log 2 q + 1) := Int.lt_zpow_succ_log_self one_lt_two q
  rw [toPrecision, hlast]
  constructor
  · rw [hlow, toGrid] at *
    refine le_trans ?_ (le_abs_self _)
    refine mul_le_mul_of_nonneg_right ?_ (two_zpow_pos _).le
    rw [← le_div_iff₀ (two_zpow_pos _), ← Int.le_floor] at hle
    exact_mod_cast hle.trans (r.floor_le_toInt _)
  · rw [hhigh] at hlt ⊢
    exact r.abs_toGrid_le (by rw [abs_of_pos hq]; exact hlt.le)

theorem Encloses.log_eq {s : ℕ} {e : ℤ} {sticky : Bool} {m : ℚ} (h : Encloses s e sticky m)
    (hs : s ≠ 0) : Int.log 2 m = e + Exact.topBit s := by
  obtain ⟨ε, h0, h1, -, rfl⟩ := h
  have hlo : (2 : ℚ) ^ s.log2 ≤ s := by exact_mod_cast Nat.log2_self_le hs
  have hhi : (s : ℚ) + 1 ≤ 2 ^ (s.log2 + 1) := by exact_mod_cast Nat.lt_log2_self (n := s)
  rw [Exact.topBit, if_neg hs]
  apply log_eq_of_le_of_lt
  · rw [two_zpow_add_nat]
    exact mul_le_mul_of_nonneg_right (hlo.trans (le_add_of_nonneg_right h0)) (two_zpow_pos e).le
  · rw [show e + s.log2 + 1 = e + (s.log2 + 1 : ℕ) by push_cast; ring, two_zpow_add_nat]
    exact mul_lt_mul_of_pos_right (by linarith) (two_zpow_pos e)

theorem Encloses.nonneg {s : ℕ} {e : ℤ} {sticky : Bool} {m : ℚ} (h : Encloses s e sticky m) :
    0 ≤ m := by
  obtain ⟨ε, h0, -, -, rfl⟩ := h
  exact mul_nonneg (by positivity) (two_zpow_pos e).le

structure Truncated.Resolves (t : Truncated) (x : ℚ) : Prop where
  encloses : Encloses t.value.significand t.value.exponent t.sticky |x|
  sign : signed t.value.negative |x| = x
  lt : t.value.significand < 2 ^ 128
  wide : t.sticky = true → 2 ^ 62 ≤ t.value.significand

theorem Truncated.Resolves.ne_zero {t : Truncated} {x : ℚ} (h : t.Resolves x)
    (hs : t.value.significand ≠ 0) : x ≠ 0 := by
  obtain ⟨ε, h0, -, -, hm⟩ := h.encloses
  have hpos : (0 : ℚ) < t.value.significand := by positivity
  rw [← abs_pos, hm]
  exact mul_pos (by linarith) (two_zpow_pos _)

theorem Truncated.Resolves.significand_ne_zero {t : Truncated} {x : ℚ} (h : t.Resolves x)
    (hx : x ≠ 0) : t.value.significand ≠ 0 := by
  intro hs
  have hsticky : t.sticky = false := by
    by_contra hne
    have := h.wide (by simpa using hne)
    omega
  obtain ⟨ε, -, -, hε, hm⟩ := h.encloses
  rw [hs, hε.mpr hsticky] at hm
  exact hx (by simpa using hm)

theorem Truncated.Resolves.isZero_iff {t : Truncated} {x : ℚ} (h : t.Resolves x) :
    (t.value.isZero && !t.sticky) = true ↔ x = 0 := by
  rw [Bool.and_eq_true, Bool.not_eq_true', Exact.isZero, beq_iff_eq]
  refine ⟨fun hzero => ?_, fun hx => ?_⟩
  · by_contra hx
    exact h.significand_ne_zero hx hzero.1
  · have hs : t.value.significand = 0 := by
      by_contra hs
      exact h.ne_zero hs hx
    refine ⟨hs, ?_⟩
    by_contra hne
    have := h.wide (by simpa using hne)
    omega

theorem Truncated.Resolves.negative_eq {t : Truncated} {x : ℚ} (h : t.Resolves x) (hx : x ≠ 0) :
    t.value.negative = decide (x < 0) := by
  have hsign := signed_neg_iff t.value.negative (abs_pos.mpr hx)
  rw [h.sign] at hsign
  rw [Bool.eq_iff_iff, decide_eq_true_eq]
  exact hsign.symm

theorem Truncated.resolves_signed {t : Truncated} {m : ℚ}
    (h : Encloses t.value.significand t.value.exponent t.sticky m)
    (hlt : t.value.significand < 2 ^ 128) (hwide : t.sticky = true → 2 ^ 62 ≤ t.value.significand) :
    t.Resolves (signed t.value.negative m) := by
  have habs := abs_signed t.value.negative h.nonneg
  exact ⟨by rwa [habs], by rw [habs], hlt, hwide⟩

namespace Exact

def value (a : Exact) : ℚ := signed a.negative (a.significand * 2 ^ a.exponent)

theorem abs_value (a : Exact) : |a.value| = a.significand * 2 ^ a.exponent :=
  abs_signed _ (mul_nonneg (Nat.cast_nonneg _) (two_zpow_pos _).le)

theorem encloses_abs_value (a : Exact) : Encloses a.significand a.exponent false |a.value| :=
  ⟨0, le_rfl, one_pos, by simp, by rw [abs_value, add_zero]⟩

theorem isZero_iff (a : Exact) : a.isZero = true ↔ a.value = 0 := by
  rw [← abs_eq_zero, abs_value, mul_eq_zero, or_iff_left (two_zpow_pos _).ne']
  simp [isZero]

theorem value_ne_zero {a : Exact} (h : a.significand ≠ 0) : a.value ≠ 0 := by
  rw [Ne, ← isZero_iff]
  simpa [isZero] using h

theorem log_abs_value {a : Exact} (h : a.significand ≠ 0) :
    Int.log 2 |a.value| = a.normalExponent :=
  (encloses_abs_value a).log_eq h

theorem abs_value_lt_iff {a : Exact} (h : a.significand ≠ 0) (k : ℤ) :
    |a.value| < 2 ^ k ↔ a.normalExponent < k := by
  rw [lt_two_zpow_iff (abs_pos.mpr (value_ne_zero h)), log_abs_value h]

theorem below_iff (a : Exact) (k : ℤ) :
    (a.isZero || decide (a.normalExponent < k)) = decide (|a.value| < 2 ^ k) := by
  by_cases h : a.significand = 0
  · have hzero : a.value = 0 := (isZero_iff a).mp (by simp [isZero, h])
    simp [isZero, h, hzero, two_zpow_pos]
  · simp [isZero, h, abs_value_lt_iff h]

theorem above_iff (a : Exact) (k : ℤ) :
    (!a.isZero && decide (k < a.normalExponent)) = decide (2 ^ (k + 1) ≤ |a.value|) := by
  have hbelow := congrArg not (below_iff a (k + 1))
  simp only [Bool.not_or, ← decide_not, not_lt] at hbelow
  exact hbelow

theorem negative_of_pos (a : Exact) (h : 0 < a.value) : a.negative = false := by
  by_contra hne
  rw [Bool.not_eq_false] at hne
  have hneg : a.value ≤ 0 := by
    rw [value, hne]
    simpa [signed] using mul_nonneg a.significand.cast_nonneg (two_zpow_pos a.exponent).le
  exact h.not_ge hneg

theorem negative_of_neg (a : Exact) (h : a.value < 0) : a.negative = true := by
  by_contra hne
  rw [Bool.not_eq_true] at hne
  have hpos : 0 ≤ a.value := by
    rw [value, hne]
    simpa [signed] using mul_nonneg a.significand.cast_nonneg (two_zpow_pos a.exponent).le
  exact h.not_ge hpos

theorem signed_abs_value (a : Exact) : signed a.negative |a.value| = a.value := by
  rw [abs_value, value]

theorem value_negate (a : Exact) : a.negate.value = -a.value := by
  cases h : a.negative <;> simp [value, negate, signed, h]

theorem resolves_value (a : Exact) (h : a.significand < 2 ^ 128) :
    Truncated.Resolves ⟨a, false⟩ a.value := by
  rw [← signed_abs_value a]
  exact Truncated.resolves_signed (t := ⟨a, false⟩) (encloses_abs_value a) h (by simp)

theorem resolves_zero (negative : Bool) : Truncated.Resolves ⟨zero negative, false⟩ 0 := by
  have hzero : (zero negative).value = 0 := (isZero_iff _).mp rfl
  have h := resolves_value (zero negative) (Nat.two_pow_pos 128)
  rwa [hzero] at h

structure AlignedAs (a b : Exact) (bit : ℕ) : Prop where
  negative : b.negative = a.negative
  exponent : b.exponent = a.normalExponent - bit
  significand : b.significand = a.significand * 2 ^ (bit - a.significand.log2)
  le : 2 ^ bit ≤ b.significand
  lt : b.significand < 2 ^ (bit + 1)
  value : b.value = a.value

theorem alignedTo_spec (a : Exact) (bit : ℕ) (ha : a.significand ≠ 0)
    (hlt : a.significand < 2 ^ (bit + 1)) : AlignedAs a (a.alignedTo bit) bit := by
  have hlog : a.significand.log2 ≤ bit := Nat.lt_succ_iff.mp ((Nat.log2_lt ha).mpr hlt)
  obtain ⟨k, rfl⟩ : ∃ k, bit = a.significand.log2 + k := ⟨_, (Nat.add_sub_of_le hlog).symm⟩
  have haligned : a.alignedTo (a.significand.log2 + k) =
      ⟨a.negative, a.exponent - k, a.significand * 2 ^ k⟩ := by
    have hshift : ((a.significand.log2 + k : ℕ) : ℤ) - topBit a.significand = k := by
      rw [topBit, if_neg ha]
      omega
    rw [alignedTo, if_neg ha]
    simp only [hshift, Int.natCast_nonneg, if_true, Int.toNat_natCast, Nat.shiftLeft_eq]
  rw [haligned]
  refine ⟨rfl, ?_, ?_, ?_, ?_, ?_⟩
  · simp only [normalExponent, topBit, if_neg ha]
    push_cast
    ring
  · simp
  · rw [pow_add]
    exact Nat.mul_le_mul_right _ (Nat.log2_self_le ha)
  · rw [show a.significand.log2 + k + 1 = (a.significand.log2 + 1) + k by omega, pow_add]
    exact Nat.mul_lt_mul_of_pos_right Nat.lt_log2_self (by positivity)
  · have hpow : (2 : ℚ) ^ a.exponent = 2 ^ k * 2 ^ (a.exponent - k) := by
      rw [← two_zpow_add_nat, sub_add_cancel]
    simp only [value, hpow]
    push_cast
    congr 1
    ring

theorem fraction_spec (a : Exact) {bits : ℕ} (ha : a.significand ≠ 0)
    (hlt : a.significand < 2 ^ (bits + 1)) {fraction : ℕ}
    (hfraction : fraction =
      a.significand <<< (bits - (a.normalExponent - a.exponent) : ℤ).toNat % (1 <<< bits)) :
    fraction < 2 ^ bits ∧
      |a.value| = (fraction + 2 ^ bits : ℕ) * 2 ^ (a.normalExponent - bits) := by
  have h := alignedTo_spec a bits ha hlt
  have hshift : (bits - (a.normalExponent - a.exponent) : ℤ).toNat = bits - a.significand.log2 := by
    rw [normalExponent, topBit, if_neg ha]
    omega
  rw [hshift, Nat.shiftLeft_eq, ← h.significand, Nat.one_shiftLeft] at hfraction
  have hlow := h.le
  have hhigh := h.lt
  rw [pow_succ] at hhigh
  have hsum : fraction + 2 ^ bits = (a.alignedTo bits).significand := by
    rw [hfraction, Nat.mod_eq_sub_mod hlow, Nat.mod_eq_of_lt (by omega)]
    omega
  refine ⟨hfraction ▸ Nat.mod_lt _ (Nat.two_pow_pos bits), ?_⟩
  rw [hsum, ← h.exponent, ← h.value, abs_value]

theorem log_eq_normalExponent {t : Truncated} {x : ℚ} (h : t.Resolves x)
    (hs : t.value.significand ≠ 0) : Int.log 2 |x| = t.value.normalExponent :=
  h.encloses.log_eq hs

end Exact

end EV6
