import EV6.Proofs.Float.Exact

namespace EV6

namespace Exact

def SplitsAs (m : ℚ) (lsb : ℤ) (split : ℕ × Tail) : Prop :=
  ∃ δ : ℚ, 0 ≤ δ ∧ δ < 1 ∧ split.2 = Tail.ofFraction δ ∧ m = (split.1 + δ) * 2 ^ lsb

theorem significandBound_eq : significandBound = 2 ^ 128 := rfl

theorem ofSticky_eq {δ : ℚ} {sticky : Bool} (h : δ < 1 / 2)
    (hsticky : δ = 0 ↔ sticky = false) : Tail.ofSticky sticky = Tail.ofFraction δ := by
  cases sticky <;> simp_all [Tail.ofSticky, Tail.ofFraction]

theorem splitAt_left {s : ℕ} {e lsb : ℤ} (hle : lsb ≤ e) (hs : (s : ℚ) * 2 ^ e < 2 ^ 128 * 2 ^ lsb) :
    SplitsAs (s * 2 ^ e) lsb (splitAt s e false lsb) := by
  obtain ⟨n, hn⟩ : ∃ n : ℕ, e = lsb + n := ⟨(e - lsb).toNat, by omega⟩
  have hdrop : lsb - e ≤ 0 := by omega
  have hshift : (-(lsb - e)).toNat = n := by omega
  rw [hn, two_zpow_add_nat, ← mul_assoc, mul_lt_mul_iff_left₀ (two_zpow_pos lsb)] at hs
  have hlt : s * 2 ^ n < 2 ^ 128 := by exact_mod_cast hs
  have hkept : (s <<< min n 127) % significandBound = s * 2 ^ n := by
    rw [Nat.shiftLeft_eq, significandBound_eq]
    rcases le_or_gt n 127 with hn' | hn'
    · rw [min_eq_left hn', Nat.mod_eq_of_lt hlt]
    · have hs0 : s = 0 := by
        by_contra hne
        have hpow : 2 ^ 128 ≤ 2 ^ n := Nat.pow_le_pow_right (by decide) hn'
        have hmul : 1 * 2 ^ n ≤ s * 2 ^ n := Nat.mul_le_mul_right _ (Nat.pos_of_ne_zero hne)
        omega
      simp [hs0]
  refine ⟨0, le_rfl, by norm_num, ?_, ?_⟩
  · rw [splitAt, if_pos hdrop]
    rfl
  · rw [splitAt, if_pos hdrop, hshift, hkept, hn, two_zpow_add_nat]
    push_cast
    ring

theorem splitAt_far {s : ℕ} {e lsb : ℤ} {sticky : Bool} {m : ℚ} (h : Encloses s e sticky m)
    (hs : s < 2 ^ 128) (hfar : 128 < lsb - e) : SplitsAs m lsb (splitAt s e sticky lsb) := by
  obtain ⟨ε, h0, h1, hsticky, rfl⟩ := h
  obtain ⟨n, rfl⟩ : ∃ n : ℕ, lsb = e + n := ⟨(lsb - e).toNat, by omega⟩
  have hpow : (2 : ℚ) * 2 ^ 128 ≤ 2 ^ n := by
    rw [← pow_succ']
    exact pow_le_pow_right₀ (by norm_num) (by omega)
  have hbig : (0 : ℚ) < 2 ^ n := by positivity
  have hm : (s : ℚ) + ε < 2 ^ 128 := by
    have : (s : ℚ) + 1 ≤ 2 ^ 128 := by exact_mod_cast hs
    linarith
  have hzero : ((s : ℚ) + ε) / 2 ^ n = 0 ↔ (s != 0 || sticky) = false := by
    rw [div_eq_zero_iff, or_iff_left hbig.ne', add_eq_zero_iff_of_nonneg (by positivity) h0, hsticky]
    simp
  refine ⟨(s + ε) / 2 ^ n, by positivity, ?_, ?_, ?_⟩
  · rw [div_lt_one hbig]
    linarith
  · rw [splitAt, if_neg (by omega), if_pos hfar]
    refine ofSticky_eq ?_ hzero
    rw [div_lt_iff₀ hbig]
    linarith
  · rw [splitAt, if_neg (by omega), if_pos hfar, two_zpow_add_nat]
    field_simp
    simp

theorem ofRemainder_eq {rem half : ℕ} {sticky : Bool} {ε : ℚ} (hhalf : 0 < half) (h0 : 0 ≤ ε)
    (h1 : ε < 1) (hsticky : ε = 0 ↔ sticky = false) :
    Tail.ofRemainder rem half sticky = Tail.ofFraction ((rem + ε) / (2 * half)) := by
  have hpos : (0 : ℚ) < 2 * half := by positivity
  have hzero : ((rem : ℚ) + ε) / (2 * half) = 0 ↔ rem = 0 ∧ sticky = false := by
    rw [div_eq_zero_iff, or_iff_left hpos.ne', add_eq_zero_iff_of_nonneg (by positivity) h0, hsticky]
    simp
  have hbelow : ((rem : ℚ) + ε) / (2 * half) < 1 / 2 ↔ rem < half := by
    rw [div_lt_iff₀ hpos, show (1 / 2 : ℚ) * (2 * half) = half by ring]
    constructor
    · intro h
      exact_mod_cast (le_add_of_nonneg_right h0).trans_lt h
    · intro h
      have : (rem : ℚ) + 1 ≤ half := by exact_mod_cast h
      linarith
  have hequal : ((rem : ℚ) + ε) / (2 * half) = 1 / 2 ↔ rem = half ∧ sticky = false := by
    rw [div_eq_iff hpos.ne', show (1 / 2 : ℚ) * (2 * half) = half by ring, ← hsticky]
    constructor
    · intro h
      have hle : rem ≤ half := by exact_mod_cast (le_add_of_nonneg_right h0).trans h.le
      have hge : half < rem + 1 := by
        have : (half : ℚ) < rem + 1 := by linarith
        exact_mod_cast this
      have heq : rem = half := by omega
      rw [heq] at h
      exact ⟨heq, by linarith⟩
    · rintro ⟨rfl, rfl⟩
      ring
  unfold Tail.ofRemainder Tail.ofFraction
  simp only [hzero, hbelow, hequal, Bool.and_eq_true, Bool.not_eq_true', decide_eq_true_eq]

theorem splitAt_near {s : ℕ} {e lsb : ℤ} {sticky : Bool} {m : ℚ} (h : Encloses s e sticky m)
    (hlt : e < lsb) (hnear : lsb - e ≤ 128) : SplitsAs m lsb (splitAt s e sticky lsb) := by
  obtain ⟨ε, h0, h1, hsticky, rfl⟩ := h
  obtain ⟨d, rfl⟩ : ∃ d : ℕ, lsb = e + (d + 1 : ℕ) := ⟨(lsb - e - 1).toNat, by omega⟩
  have hdrop : (e + (d + 1 : ℕ) - e).toNat = d + 1 := by omega
  have hsplit : splitAt s e sticky (e + (d + 1 : ℕ)) =
      (s / 2 ^ (d + 1), Tail.ofRemainder (s % 2 ^ (d + 1)) (2 ^ d) sticky) := by
    rw [splitAt, if_neg (by omega), if_neg (by omega), hdrop]
    simp only [Nat.shiftRight_eq_div_pow, Nat.one_shiftLeft, Nat.add_sub_cancel]
  have hdiv : (s : ℚ) = (2 ^ (d + 1) : ℕ) * (s / 2 ^ (d + 1) : ℕ) + (s % 2 ^ (d + 1) : ℕ) := by
    exact_mod_cast (Nat.div_add_mod s (2 ^ (d + 1))).symm
  have hrem : ((s % 2 ^ (d + 1) : ℕ) : ℚ) + 1 ≤ 2 ^ (d + 1) := by
    exact_mod_cast Nat.mod_lt s (by positivity)
  rw [hsplit]
  refine ⟨((s % 2 ^ (d + 1) : ℕ) + ε) / (2 * (2 ^ d : ℕ)), by positivity, ?_, ?_, ?_⟩
  · rw [div_lt_one (by positivity)]
    push_cast
    rw [← pow_succ']
    linarith
  · exact ofRemainder_eq (by positivity) h0 h1 hsticky
  · rw [two_zpow_add_nat, ← mul_assoc, hdiv]
    congr 1
    push_cast
    field_simp
    ring

theorem splitAt_spec {s : ℕ} {e lsb : ℤ} {sticky : Bool} {m : ℚ} (h : Encloses s e sticky m)
    (hs : s < 2 ^ 128) (hfits : e < lsb ∨ sticky = false ∧ m < 2 ^ 128 * 2 ^ lsb) :
    SplitsAs m lsb (splitAt s e sticky lsb) := by
  rcases lt_or_ge e lsb with hlt | hle
  · rcases le_or_gt (lsb - e) 128 with hnear | hfar
    · exact splitAt_near h hlt hnear
    · exact splitAt_far h hs hfar
  · obtain ⟨rfl, hm⟩ := hfits.resolve_left hle.not_gt
    obtain ⟨ε, -, -, hε, rfl⟩ := h
    rw [hε.mpr rfl, add_zero] at hm ⊢
    exact splitAt_left hle hm

theorem natCast_ne_add_of_lt {δ : ℚ} {kept : ℕ} (h0 : 0 < δ) (h1 : δ < 1) (k : ℕ) :
    (k : ℚ) ≠ kept + δ := by
  intro hk
  have hlo : (kept : ℚ) < k := by linarith
  have hhi : (k : ℚ) < kept + 1 := by linarith
  norm_cast at hlo hhi
  omega

structure KeptOf (kept : Kept) (rounding : Rounding) (negative : Bool) (lsb : ℤ) (m : ℚ) : Prop where
  value : signed negative (kept.significand * 2 ^ lsb : ℚ) = rounding.toGrid lsb (signed negative m)
  inexact : kept.inexact = decide (rounding.toGrid lsb (signed negative m) ≠ signed negative m)

theorem roundAt_spec {s : ℕ} {e lsb : ℤ} {sticky : Bool} {m : ℚ} (h : Encloses s e sticky m)
    (hs : s < 2 ^ 128) (hfits : e < lsb ∨ sticky = false ∧ m < 2 ^ 128 * 2 ^ lsb)
    (rounding : Rounding) (negative : Bool) :
    KeptOf (roundAt s e sticky lsb rounding negative) rounding negative lsb m := by
  obtain ⟨δ, h0, h1, htail, hm⟩ := splitAt_spec h hs hfits
  unfold roundAt
  generalize splitAt s e sticky lsb = split at htail hm ⊢
  obtain ⟨kept, tail⟩ := split
  obtain rfl : tail = Tail.ofFraction δ := htail
  obtain rfl : m = (kept + δ) * 2 ^ lsb := hm
  have hgrid : rounding.toGrid lsb (signed negative ((kept + δ) * 2 ^ lsb)) =
      signed negative (((kept +
        ((Tail.ofFraction δ).increments rounding negative (kept % 2 == 1)).toNat : ℕ) : ℚ) *
          2 ^ lsb) := by
    rw [Rounding.toGrid, signed_mul, mul_div_cancel_right₀ _ (two_zpow_pos lsb).ne',
      Rounding.toInt_signed rounding negative kept h0 h1, signed_mul, signed_natCast]
  refine ⟨hgrid.symm, ?_⟩
  · rw [hgrid]
    simp only [ne_eq, signed_inj, mul_left_inj' (two_zpow_pos lsb).ne']
    rcases h0.eq_or_lt with rfl | hpos
    · simp [Tail.ofFraction, Tail.increments]
    · have htail : Tail.ofFraction δ ≠ .exact := Tail.ofFraction_eq_exact.not.mpr hpos.ne'
      rw [decide_eq_true (natCast_ne_add_of_lt hpos h1 _)]
      exact bne_iff_ne.mpr htail

theorem KeptOf.significand_le {kept : Kept} {rounding : Rounding} {negative : Bool} {lsb : ℤ} {m : ℚ}
    {n : ℕ} (h : KeptOf kept rounding negative lsb m) (h0 : 0 ≤ m) (hm : m ≤ n * 2 ^ lsb) :
    kept.significand ≤ n := by
  have hbound := rounding.abs_toGrid_le ((abs_signed negative h0).trans_le hm)
  rw [← h.value, abs_signed _ (mul_nonneg (Nat.cast_nonneg _) (two_zpow_pos _).le)] at hbound
  exact_mod_cast le_of_mul_le_mul_right hbound (two_zpow_pos _)

theorem renormalize_spec (a : Exact) {p : ℕ} (hp : 0 < p) (ha : a.significand ≤ 2 ^ p) :
    (a.renormalize p).value = a.value ∧ (a.renormalize p).negative = a.negative ∧
      (a.renormalize p).significand < 2 ^ p ∧ a.exponent ≤ (a.renormalize p).exponent := by
  obtain ⟨p, rfl⟩ : ∃ q, p = q + 1 := ⟨p - 1, by omega⟩
  rw [renormalize, Nat.one_shiftLeft]
  split_ifs with hcarry
  · have hsig : a.significand = 2 ^ (p + 1) := le_antisymm ha hcarry
    have hhalf : a.significand / 2 = 2 ^ p := by rw [hsig, pow_succ, Nat.mul_div_cancel _ two_pos]
    refine ⟨?_, rfl, ?_, by simp⟩
    · simp only [value, hhalf]
      rw [hsig]
      push_cast
      rw [zpow_add_one₀ two_ne_zero, pow_succ]
      congr 1
      ring
    · simp only [hhalf]
      exact Nat.pow_lt_pow_right one_lt_two (Nat.lt_succ_self p)
  · exact ⟨rfl, rfl, not_le.mp hcarry, le_rfl⟩

end Exact

namespace FloatLimits

def lastBitOf (limits : FloatLimits) (x : ℚ) : ℤ :=
  if limits.denormals ∧ |x| < 2 ^ limits.emin then limits.emin - limits.precision + 1
  else Rounding.lastBitOf limits.precision x

def rounded (limits : FloatLimits) (rounding : Rounding) (x : ℚ) : ℚ :=
  rounding.toGrid (limits.lastBitOf x) x

theorem rounded_of_tiny {limits : FloatLimits} {x : ℚ} (rounding : Rounding)
    (hdenormals : limits.denormals = true) (htiny : |x| < 2 ^ limits.emin) :
    limits.rounded rounding x = rounding.toGrid (limits.emin - limits.precision + 1) x := by
  rw [rounded, lastBitOf, if_pos ⟨hdenormals, htiny⟩]

theorem rounded_of_large (limits : FloatLimits) {x : ℚ} (rounding : Rounding)
    (hlarge : limits.denormals = true → 2 ^ limits.emin ≤ |x|) :
    limits.rounded rounding x = rounding.toPrecision limits.precision x := by
  rw [rounded, lastBitOf, if_neg fun h => h.2.not_ge (hlarge h.1)]
  rfl

theorem log_le_lastBitOf (limits : FloatLimits) {x : ℚ} (hx : x ≠ 0) :
    Int.log 2 |x| - limits.precision + 1 ≤ limits.lastBitOf x := by
  rw [lastBitOf]
  split_ifs with h
  · have hlog := (lt_two_zpow_iff (abs_pos.mpr hx) _).mp h.2
    omega
  · exact le_rfl

end FloatLimits

structure Rounded.IsOf (q : Rounded) (limits : FloatLimits) (rounding : Rounding) (x : ℚ) :
    Prop where
  value : q.value.value = limits.rounded rounding x
  lt : q.value.significand < 2 ^ limits.precision
  le_exponent : limits.denormals = true → limits.emin - limits.precision + 1 ≤ q.value.exponent
  inexact : q.inexact = decide (limits.rounded rounding x ≠ x)
  tiny : q.tiny =
    if limits.denormals then decide (|x| < 2 ^ limits.emin)
    else decide (|limits.rounded rounding x| < 2 ^ limits.emin)
  overflow : q.overflow = decide (2 ^ (limits.emax + 1) ≤ |limits.rounded rounding x|)

namespace Exact

variable {t : Truncated} {x : ℚ} {limits : FloatLimits}

theorem lastBit_eq (h : t.Resolves x) (hs : t.value.significand ≠ 0) (hx : x ≠ 0) :
    t.value.lastBit limits = limits.lastBitOf x := by
  simp [lastBit, FloatLimits.lastBitOf, Rounding.lastBitOf, lt_two_zpow_iff (abs_pos.mpr hx),
    log_eq_normalExponent h hs, and_comm]

theorem lt_lastBit_or (h : t.Resolves x) (hs : t.value.significand ≠ 0) (hx : x ≠ 0)
    (hp : limits.precision < 63) :
    t.value.exponent < limits.lastBitOf x ∨
      t.sticky = false ∧ |x| < 2 ^ 128 * 2 ^ limits.lastBitOf x := by
  have hlog := h.encloses.log_eq hs
  have hle := limits.log_le_lastBitOf hx
  cases hsticky : t.sticky with
  | true =>
    have htop : 62 ≤ t.value.significand.log2 := (Nat.le_log2 hs).mpr (h.wide hsticky)
    rw [topBit, if_neg hs] at hlog
    left
    omega
  | false =>
    refine .inr ⟨rfl, ?_⟩
    rw [show (2 : ℚ) ^ 128 * 2 ^ limits.lastBitOf x = 2 ^ (limits.lastBitOf x + 128) from
      (two_zpow_add_nat _ 128).symm, lt_two_zpow_iff (abs_pos.mpr hx)]
    omega

theorem round_spec (limits : FloatLimits) (h : t.Resolves x) (hs : t.value.significand ≠ 0) (hp : 0 < limits.precision)
    (hp' : limits.precision < 63) (rounding : Rounding) :
    (t.value.round t.sticky limits rounding).IsOf limits rounding x ∧
      (t.value.round t.sticky limits rounding).value.negative = t.value.negative := by
  have hx : x ≠ 0 := h.ne_zero hs
  have hpos : 0 < |x| := abs_pos.mpr hx
  have hkept := roundAt_spec h.encloses h.lt (lt_lastBit_or h hs hx hp') rounding t.value.negative
  simp only [round, if_neg hs, lastBit_eq h hs hx]
  generalize roundAt t.value.significand t.value.exponent t.sticky (limits.lastBitOf x) rounding
    t.value.negative = kept at hkept ⊢
  have hgrid := hkept.value
  have hinexact := hkept.inexact
  rw [h.sign] at hgrid hinexact
  have hle : kept.significand ≤ 2 ^ limits.precision := by
    have hx' : |x| ≤ (2 ^ limits.precision : ℕ) * 2 ^ limits.lastBitOf x := by
      have hlog := limits.log_le_lastBitOf hx
      push_cast
      rw [← two_zpow_add_nat]
      exact ((lt_two_zpow_iff hpos _).mpr (by omega)).le
    exact hkept.significand_le hpos.le hx'
  obtain ⟨hvalue, hnegative, hlt, hexponent⟩ :=
    renormalize_spec ⟨t.value.negative, limits.lastBitOf x, kept.significand⟩ hp hle
  have hrounded : _ = limits.rounded rounding x := hvalue.trans hgrid
  refine ⟨⟨hrounded, hlt, ?_, hinexact, ?_, ?_⟩, hnegative⟩
  · intro hdenormals
    refine le_trans ?_ hexponent
    simp only [FloatLimits.lastBitOf, hdenormals, true_and]
    split_ifs with htiny
    · exact le_rfl
    · rw [lt_two_zpow_iff hpos] at htiny
      simp only [Rounding.lastBitOf]
      omega
  · simp only [below_iff, hrounded, lt_two_zpow_iff hpos, log_eq_normalExponent h hs]
  · simp only [above_iff, hrounded]

end Exact

end EV6
