import EV6.Float.Bounded
import EV6.Proofs.Float.Reals
import EV6.Proofs.Float.Rounded
/-!
Rounding at any bit is correct for real magnitudes. A significand and a sticky bit are all that is
left of a magnitude that was cut off, and every magnitude that leaves them is rounded alike above the
cut. Nothing overflows on the way.
-/

namespace EV6

structure CutsTo (x : ℝ) (exponent : ℤ) (significand : ℕ) (sticky : Bool) : Prop where
  exact : sticky = false → x = significand * 2 ^ exponent
  inside : sticky = true → significand * 2 ^ exponent < x ∧ x < (significand + 1) * 2 ^ exponent

structure Kept.IsOf (kept : Kept) (rounding : Rounding) (negative : Bool) (lsb : ℤ) (x : ℝ) :
    Prop where
  rounded : signed negative (kept.significand : ℤ) =
    rounding.toIntReal (signed negative x / 2 ^ lsb)
  inexact : kept.inexact = true ↔ ¬∃ k : ℤ, signed negative x = k * 2 ^ lsb

section Signed

variable {x y : ℝ} {j : ℤ}

theorem signed_div_real (negative : Bool) (x y : ℝ) :
    signed negative x / y = signed negative (x / y) := by
  cases negative <;> simp [signed, neg_div]

theorem signed_ratCast (negative : Bool) (q : ℚ) :
    signed negative (q : ℝ) = (signed negative q : ℚ) := by
  cases negative <;> simp [signed]

theorem signed_between (negative : Bool) (hlo : j < 2 * x) (hhi : 2 * x < j + 1) :
    ((if negative then -j - 1 else j : ℤ) : ℝ) < 2 * signed negative x ∧
      2 * signed negative x < ((if negative then -j - 1 else j : ℤ) : ℝ) + 1 := by
  cases negative <;> simp only [signed, if_true, if_false, Bool.false_eq_true] <;> push_cast <;>
    exact ⟨by linarith, by linarith⟩

theorem toIntReal_signed_eq (r : Rounding) (negative : Bool) (hx : j < 2 * x)
    (hx' : 2 * x < j + 1) (hy : j < 2 * y) (hy' : 2 * y < j + 1) :
    r.toIntReal (signed negative x) = r.toIntReal (signed negative y) := by
  obtain ⟨hlow, hhigh⟩ := signed_between negative hx hx'
  obtain ⟨hlow', hhigh'⟩ := signed_between negative hy hy'
  rw [r.toIntReal_of_between hlow hhigh, r.toIntReal_of_between hlow' hhigh']

theorem signed_isMultiple_iff {K : Type} [Field K] (negative : Bool) (x : K) (lsb : ℤ) :
    (∃ k : ℤ, signed negative x = k * 2 ^ lsb) ↔ ∃ k : ℤ, x = k * 2 ^ lsb := by
  cases negative with
  | false => rfl
  | true =>
    constructor
    · rintro ⟨k, hk⟩
      refine ⟨-k, ?_⟩
      rw [Int.cast_neg, neg_mul, ← hk, signed, if_pos rfl, neg_neg]
    · rintro ⟨k, rfl⟩
      refine ⟨-k, ?_⟩
      rw [Int.cast_neg, neg_mul, signed, if_pos rfl]

end Signed

section Cut

variable {s : ℕ} {e lsb : ℤ} {sticky : Bool} {x : ℝ}

theorem not_isMultiple_of_between (hle : e ≤ lsb) (hlo : s * 2 ^ e < x) (hhi : x < (s + 1) * 2 ^ e) :
    ¬∃ k : ℤ, x = k * 2 ^ lsb := by
  rintro ⟨k, rfl⟩
  obtain ⟨n, rfl⟩ : ∃ n : ℕ, lsb = e + n := ⟨(lsb - e).toNat, by omega⟩
  have hpow : (0 : ℝ) < 2 ^ e := zpow_pos two_pos e
  rw [Rounding.zpow_add_natCast, mul_comm ((2 : ℝ) ^ e), ← mul_assoc, mul_lt_mul_iff_left₀ hpow]
    at hlo hhi
  have hlo' : (s : ℤ) < k * 2 ^ n := by exact_mod_cast hlo
  have hhi' : k * 2 ^ n < (s : ℤ) + 1 := by exact_mod_cast hhi
  omega

/-- A rational magnitude in the place of a real one: cut off it leaves the same, and where more is cut
off it is rounded alike. -/
structure CutsAlike (q : ℚ) (x : ℝ) (e : ℤ) (s : ℕ) (sticky : Bool) (lsb : ℤ) : Prop where
  encloses : Encloses s e sticky q
  rounded : ∀ (r : Rounding) (negative : Bool),
    r.toIntReal (signed negative x / 2 ^ lsb) = r.toInt (signed negative q / 2 ^ lsb)
  isMultiple : (∃ k : ℤ, x = k * 2 ^ lsb) ↔ ∃ k : ℤ, q = k * 2 ^ lsb

theorem cutsAlike_ratCast (s : ℕ) (e lsb : ℤ) :
    CutsAlike (s * 2 ^ e) ((s * 2 ^ e : ℚ) : ℝ) e s false lsb := by
  refine ⟨⟨0, le_rfl, one_pos, by simp, by rw [add_zero]⟩, fun r negative => ?_, ?_⟩
  · rw [signed_ratCast, ← r.toIntReal_ratCast]
    push_cast
    rfl
  · refine exists_congr fun k => ?_
    rw [← Rat.cast_inj (α := ℝ)]
    push_cast
    rfl

theorem cutsAlike_half (hlt : e < lsb) (hlo : s * 2 ^ e < x) (hhi : x < (s + 1) * 2 ^ e) :
    CutsAlike ((s + 1 / 2) * 2 ^ e) x e s true lsb := by
  have hpow : (0 : ℝ) < 2 ^ e := zpow_pos two_pos e
  have hq : s * 2 ^ e < (((s + 1 / 2) * 2 ^ e : ℚ) : ℝ) := by
    push_cast
    exact mul_lt_mul_of_pos_right (by linarith) hpow
  have hq' : (((s + 1 / 2) * 2 ^ e : ℚ) : ℝ) < (s + 1) * 2 ^ e := by
    push_cast
    exact mul_lt_mul_of_pos_right (by linarith) hpow
  refine ⟨⟨1 / 2, by norm_num, by norm_num, by norm_num, rfl⟩, fun r negative => ?_, ?_⟩
  · obtain ⟨n, rfl⟩ : ∃ n : ℕ, lsb = e + (n + 1 : ℕ) := ⟨(lsb - e - 1).toNat, by omega⟩
    obtain ⟨hx, hx'⟩ := Rounding.scaled_between n hlo hhi
    obtain ⟨hy, hy'⟩ := Rounding.scaled_between n hq hq'
    rw [signed_div_real, toIntReal_signed_eq r negative hx hx' hy hy', ← signed_div_real,
      signed_ratCast, ← r.toIntReal_ratCast]
    push_cast
    rfl
  · refine iff_of_false (not_isMultiple_of_between hlt.le hlo hhi) ?_
    rintro ⟨k, hk⟩
    refine not_isMultiple_of_between hlt.le hq hq' ⟨k, ?_⟩
    rw [hk]
    push_cast
    rfl

theorem CutsTo.exists_alike (h : CutsTo x e s sticky) (hlt : sticky = true → e < lsb) :
    ∃ q, CutsAlike q x e s sticky lsb := by
  cases sticky with
  | false =>
    have hx : x = ((s * 2 ^ e : ℚ) : ℝ) := by
      rw [h.exact rfl]
      push_cast
      rfl
    exact ⟨_, hx ▸ cutsAlike_ratCast s e lsb⟩
  | true =>
    obtain ⟨hlo, hhi⟩ := h.inside rfl
    exact ⟨_, cutsAlike_half (hlt rfl) hlo hhi⟩

end Cut

namespace Exact

variable {s : ℕ} {e lsb : ℤ} {sticky : Bool} {x : ℝ}

theorem exists_bound {q : ℚ} (h : Encloses s e sticky q) (hs : s < 2 ^ 128)
    (hfits : e < lsb ∨ sticky = false ∧ (s : ℚ) * 2 ^ (e - lsb) < 2 ^ 128) :
    ∃ n : ℕ, n < 2 ^ 128 ∧ q ≤ n * 2 ^ lsb := by
  obtain ⟨ε, h0, h1, hε, rfl⟩ := h
  rcases lt_or_ge e lsb with hlt | hle
  · obtain ⟨n, rfl⟩ : ∃ n : ℕ, lsb = e + (n + 1 : ℕ) := ⟨(lsb - e - 1).toNat, by omega⟩
    refine ⟨2 ^ 127, by norm_num, ?_⟩
    have hs' : (s : ℚ) + 1 ≤ 2 ^ 128 := by exact_mod_cast hs
    have hn : (1 : ℚ) ≤ 2 ^ n := one_le_pow₀ one_le_two
    rw [two_zpow_add_nat, ← mul_assoc]
    refine mul_le_mul_of_nonneg_right ?_ (two_zpow_pos e).le
    calc (s : ℚ) + ε ≤ 2 ^ 128 := by linarith
      _ ≤ 2 ^ 128 * 2 ^ n := le_mul_of_one_le_right (by norm_num) hn
      _ = (2 ^ 127 : ℕ) * 2 ^ (n + 1) := by
        push_cast
        ring
  · obtain ⟨rfl, hbound⟩ := hfits.resolve_left hle.not_gt
    obtain ⟨n, rfl⟩ : ∃ n : ℕ, e = lsb + n := ⟨(e - lsb).toNat, by omega⟩
    rw [add_sub_cancel_left, zpow_natCast] at hbound
    refine ⟨s * 2 ^ n, by exact_mod_cast hbound, ?_⟩
    rw [hε.mpr rfl, add_zero, two_zpow_add_nat]
    push_cast
    exact (mul_assoc _ _ _).symm.le

theorem roundAt_isOf {q : ℚ} (h : CutsAlike q x e s sticky lsb) {kept : Kept} {rounding : Rounding}
    {negative : Bool} (hkept : KeptOf kept rounding negative lsb q) :
    kept.IsOf rounding negative lsb x := by
  constructor
  · have hvalue := hkept.value
    rw [Rounding.toGrid, signed_mul, mul_left_inj' (two_zpow_pos lsb).ne', signed_natCast] at hvalue
    rw [h.rounded]
    exact_mod_cast hvalue
  · rw [hkept.inexact, decide_eq_true_eq, Ne, rounding.toGrid_eq_iff, signed_isMultiple_iff,
      signed_isMultiple_iff, h.isMultiple]

namespace Bounded

theorem roundAt_rounds (hs : s < 2 ^ 128) (he : |e| < 2 ^ 30) (hlsb : |lsb| < 2 ^ 30)
    (hx : CutsTo x e s sticky)
    (hfits : e < lsb ∨ sticky = false ∧ (s : ℚ) * 2 ^ (e - lsb) < 2 ^ 128)
    (rounding : Rounding) (negative : Bool) :
    ∃ kept, roundAt s e sticky lsb rounding negative = .ok kept ∧
      kept.significand < 2 ^ 128 ∧ kept.IsOf rounding negative lsb x := by
  have hcut : sticky = true → e < lsb := fun hsticky => by simpa [hsticky] using hfits
  obtain ⟨q, halike⟩ := hx.exists_alike hcut
  obtain ⟨n, hn, hq⟩ := exists_bound halike.encloses hs hfits
  have hfits' : e < lsb ∨ sticky = false ∧ q < 2 ^ 128 * 2 ^ lsb := by
    refine hfits.imp_right fun h => ⟨h.1, hq.trans_lt ?_⟩
    exact mul_lt_mul_of_pos_right (by exact_mod_cast hn) (two_zpow_pos lsb)
  have hkept := roundAt_spec halike.encloses hs hfits' rounding negative
  have hlt := (hkept.significand_le halike.encloses.nonneg hq).trans_lt hn
  have he := abs_lt.mp he
  have hlsb := abs_lt.mp hlsb
  exact ⟨_, roundAt_eq_ok (by omega) (by omega) hlt, hlt, roundAt_isOf halike hkept⟩

theorem roundAt_half_and_more :
    CutsTo (2 ^ 127 + 1 / 2) 0 (2 ^ 127) true ∧
      ∃ kept, roundAt (2 ^ 127) 0 true 128 .nearestEven true = .ok kept ∧
        kept.significand < 2 ^ 128 ∧ kept.IsOf .nearestEven true 128 (2 ^ 127 + 1 / 2) ∧
        kept = ⟨1, true⟩ := by
  have hx : CutsTo (2 ^ 127 + 1 / 2) 0 (2 ^ 127) true := by
    refine ⟨nofun, fun _ => ?_⟩
    norm_num
  have hlsb : |(128 : ℤ)| < 2 ^ 30 := by norm_num
  obtain ⟨kept, hok, hlt, hof⟩ :=
    roundAt_rounds (by norm_num) (by norm_num) hlsb hx (.inl (by norm_num)) .nearestEven true
  have hone : roundAt (2 ^ 127) 0 true 128 .nearestEven true = .ok ⟨1, true⟩ := by
    decide +kernel
  obtain rfl : ⟨1, true⟩ = kept := Except.ok.inj (hone.symm.trans hok)
  exact ⟨hx, ⟨1, true⟩, hok, hlt, hof, rfl⟩

end Bounded

end Exact

end EV6
