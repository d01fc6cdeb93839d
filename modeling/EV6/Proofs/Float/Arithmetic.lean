import EV6.Proofs.Float.Exact

namespace EV6.Exact

section Sum

variable {a b small : Exact}

theorem shifted_eq {s : ℕ} (distance : ℕ) (hs : s < 2 ^ 128) :
    (if 128 ≤ distance then 0 else s >>> distance) = s / 2 ^ distance ∧
      (if 128 ≤ distance then s != 0 else s % (1 <<< distance) != 0) =
        (s % 2 ^ distance != 0) := by
  split_ifs with hfar
  · have hlt : s < 2 ^ distance := hs.trans_le (Nat.pow_le_pow_right two_pos hfar)
    rw [Nat.div_eq_of_lt hlt, Nat.mod_eq_of_lt hlt]
    exact ⟨rfl, rfl⟩
  · rw [Nat.shiftRight_eq_div_pow, Nat.one_shiftLeft]
    exact ⟨rfl, rfl⟩

theorem encloses_shifted (c : Exact) (distance : ℕ) :
    Encloses (c.significand / 2 ^ distance) (c.exponent + distance)
      (c.significand % 2 ^ distance != 0) |c.value| := by
  have hdiv : (c.significand : ℚ) = 2 ^ distance * (c.significand / 2 ^ distance : ℕ) +
      (c.significand % 2 ^ distance : ℕ) := by
    exact_mod_cast (Nat.div_add_mod c.significand (2 ^ distance)).symm
  have hrem : ((c.significand % 2 ^ distance : ℕ) : ℚ) < 2 ^ distance := by
    exact_mod_cast Nat.mod_lt _ (Nat.two_pow_pos distance)
  refine ⟨(c.significand % 2 ^ distance : ℕ) / 2 ^ distance, by positivity,
    (div_lt_one (by positivity)).mpr hrem, by simp, ?_⟩
  rw [abs_value, two_zpow_add_nat, ← mul_assoc, hdiv]
  congr 1
  field_simp

theorem div_lt_of_mod_ne_zero (h : AlignedAs b small 126) (hb : b.significand < 2 ^ 63)
    (hne : b.significand ≠ 0) {distance : ℕ} (hmod : small.significand % 2 ^ distance ≠ 0) :
    small.significand / 2 ^ distance < 2 ^ 63 := by
  have hlog : b.significand.log2 < 63 := (Nat.log2_lt hne).mpr hb
  have hfar : 64 ≤ distance := by
    by_contra hnear
    refine hmod (Nat.mod_eq_zero_of_dvd ?_)
    rw [h.significand]
    exact (Nat.pow_dvd_pow 2 (by omega)).mul_left _
  rw [Nat.div_lt_iff_lt_mul (Nat.two_pow_pos _)]
  calc small.significand < 2 ^ 63 * 2 ^ 64 := h.lt
    _ ≤ 2 ^ 63 * 2 ^ distance := Nat.mul_le_mul_left _ (Nat.pow_le_pow_right two_pos hfar)

theorem combined_resolves {x y : Exact} {q : ℕ} {sticky : Bool} (hlow : 2 ^ 126 ≤ x.significand)
    (hhigh : x.significand < 2 ^ 127) (hy : Encloses q x.exponent sticky |y.value|)
    (hq : q < 2 ^ 127) (hsmall : sticky = true → q < 2 ^ 63)
    (hwhole : x.significand ≤ q → sticky = false) :
    Truncated.Resolves
      (if x.negative = y.negative then ⟨⟨x.negative, x.exponent, x.significand + q⟩, sticky⟩
        else if q < x.significand then
          ⟨⟨x.negative, x.exponent, x.significand - q - sticky.toNat⟩, sticky⟩
        else if x.significand < q then ⟨⟨y.negative, x.exponent, q - x.significand⟩, false⟩
        else ⟨zero false, false⟩)
      (x.value + y.value) := by
  obtain ⟨ρ, h0, h1, hρ, hvalue⟩ := hy
  rw [← signed_abs_value x, ← signed_abs_value y, abs_value x, hvalue]
  split_ifs with hsign hlt hgt
  · rw [hsign, signed_add_signed, ← add_mul]
    refine Truncated.resolves_signed ⟨ρ, h0, h1, hρ, ?_⟩ ?_ ?_
    · push_cast
      ring
    · simp only
      omega
    · simp only
      omega
  · have hlt' : (q : ℚ) < x.significand := by exact_mod_cast hlt
    rw [show y.negative = !x.negative from (Bool.eq_not_of_ne (Ne.symm hsign)), signed_add_signed_not]
    cases sticky with
    | false =>
      refine Truncated.resolves_signed ⟨0, le_rfl, one_pos, by simp, ?_⟩ ?_ (by simp)
      · rw [hρ.mpr rfl, Bool.toNat_false, Nat.sub_zero, Nat.cast_sub hlt.le]
        ring
      · simp only
        omega
    | true =>
      -- what the lost bits leave of the unit that was borrowed for them
      have hpos : 0 < ρ := h0.lt_of_ne fun h => by simpa using hρ.mp h.symm
      refine Truncated.resolves_signed ⟨1 - ρ, by linarith, by linarith, ?_, ?_⟩ ?_ ?_
      · simp only [sub_eq_zero, Bool.true_eq_false, iff_false]
        exact h1.ne'
      · rw [Bool.toNat_true, Nat.sub_sub, Nat.cast_sub hlt]
        push_cast
        ring
      · simp only
        omega
      · intro _
        have := hsmall rfl
        simp only [Bool.toNat_true]
        omega
  · rw [hρ.mpr (hwhole hgt.le), add_zero, add_comm,
      show x.negative = !y.negative from Bool.eq_not_of_ne hsign, signed_add_signed_not]
    refine Truncated.resolves_signed ⟨0, le_rfl, one_pos, by simp, ?_⟩ ?_ (by simp)
    · rw [Nat.cast_sub hgt.le]
      ring
    · simp only
      omega
  · have heq : x.significand = q := by omega
    rw [hρ.mpr (hwhole heq.le), add_zero, heq,
      show y.negative = !x.negative from (Bool.eq_not_of_ne (Ne.symm hsign)), signed_add_signed_not,
      sub_self, show signed x.negative (0 : ℚ) = 0 by cases x.negative <;> simp [signed]]
    exact resolves_zero false

theorem addOrdered_resolves (ha : a.significand < 2 ^ 63) (hb : b.significand < 2 ^ 63)
    (ha0 : a.significand ≠ 0) (hb0 : b.significand ≠ 0)
    (hle : b.normalExponent ≤ a.normalExponent) :
    (a.addOrdered b).Resolves (a.value + b.value) := by
  have hx := alignedTo_spec a 126 ha0 (ha.trans (by norm_num))
  have hy := alignedTo_spec b 126 hb0 (hb.trans (by norm_num))
  rw [addOrdered, ← hx.value, ← hy.value]
  generalize a.alignedTo 126 = x at hx ⊢
  generalize b.alignedTo 126 = y at hy ⊢
  obtain ⟨n, hn⟩ : ∃ n : ℕ, x.exponent = y.exponent + n :=
    ⟨(x.exponent - y.exponent).toNat, by have := hx.exponent; have := hy.exponent; omega⟩
  have hdistance : (x.exponent - y.exponent).toNat = n := by omega
  have hshifted := shifted_eq n (hy.lt.trans (by norm_num))
  have hencloses := encloses_shifted y n
  rw [← hn] at hencloses
  simp only [hdistance, hshifted]
  refine combined_resolves hx.le hx.lt hencloses ((Nat.div_le_self _ _).trans_lt hy.lt) ?_ ?_
  · intro hsticky
    exact div_lt_of_mod_ne_zero hy hb hb0 (bne_iff_ne.mp hsticky)
  · intro hwhole
    have hn0 : n = 0 := by
      by_contra hne
      have hhalf : y.significand / 2 ^ n ≤ y.significand / 2 ^ 1 :=
        Nat.div_le_div_left (Nat.pow_le_pow_right two_pos (Nat.one_le_iff_ne_zero.mpr hne)) two_pos
      have := hx.le
      have := hy.lt
      omega
    simp [hn0, Nat.mod_one]

theorem add_resolves (ha : a.significand < 2 ^ 63) (hb : b.significand < 2 ^ 63) :
    (a.add b).Resolves (a.value + b.value) := by
  rw [add]
  split_ifs with ha0 hb0 hle
  · rw [(isZero_iff a).mp ha0, zero_add]
    exact resolves_value b (hb.trans (by norm_num))
  · rw [(isZero_iff b).mp hb0, add_zero]
    exact resolves_value a (ha.trans (by norm_num))
  · exact addOrdered_resolves ha hb (by simpa [isZero] using ha0) (by simpa [isZero] using hb0) hle
  · rw [add_comm]
    exact addOrdered_resolves hb ha (by simpa [isZero] using hb0) (by simpa [isZero] using ha0)
      (not_le.mp hle).le

end Sum

theorem mul_resolves {a b : Exact} (ha : a.significand < 2 ^ 64) (hb : b.significand < 2 ^ 64) :
    Truncated.Resolves ⟨a.mul b, false⟩ (a.value * b.value) := by
  rw [mul]
  by_cases hzero : a.isZero || b.isZero
  · rw [if_pos hzero]
    rw [Bool.or_eq_true, isZero_iff, isZero_iff, ← mul_eq_zero] at hzero
    rw [hzero]
    exact resolves_zero _
  · have hne : a.significand ≠ 0 ∧ b.significand ≠ 0 := by simpa [isZero] using hzero
    have hx := alignedTo_spec a 63 hne.1 ha
    have hy := alignedTo_spec b 63 hne.2 hb
    rw [if_neg hzero, ← hx.value, ← hy.value, ← hx.negative, ← hy.negative]
    generalize a.alignedTo 63 = x at hx ⊢
    generalize b.alignedTo 63 = y at hy ⊢
    have hproduct : x.value * y.value = signed (x.negative != y.negative)
        ((x.significand * y.significand : ℕ) * 2 ^ (x.exponent + y.exponent) : ℚ) := by
      rw [value, value, signed_mul_signed, zpow_add₀ two_ne_zero]
      push_cast
      congr 1
      ring
    rw [hproduct]
    refine Truncated.resolves_signed ⟨0, le_rfl, one_pos, by simp, by rw [add_zero]⟩ ?_ (by simp)
    calc x.significand * y.significand < 2 ^ 64 * 2 ^ 64 := Nat.mul_lt_mul'' hx.lt hy.lt
      _ = 2 ^ 128 := by norm_num

theorem div_resolves {a b : Exact} (ha : a.significand < 2 ^ 63) (hb : b.significand < 2 ^ 63) :
    (a.div b).Resolves (a.value / b.value) := by
  rw [div]
  by_cases hzero : a.isZero || b.isZero
  · rw [if_pos hzero]
    rw [Bool.or_eq_true, isZero_iff, isZero_iff, ← div_eq_zero_iff] at hzero
    rw [hzero]
    exact resolves_zero _
  · have hne : a.significand ≠ 0 ∧ b.significand ≠ 0 := by simpa [isZero] using hzero
    have hx := alignedTo_spec a 126 hne.1 (ha.trans (by decide))
    have hy := alignedTo_spec b 62 hne.2 hb
    rw [if_neg hzero, ← hx.value, ← hy.value, ← hx.negative, ← hy.negative]
    generalize a.alignedTo 126 = x at hx ⊢
    generalize b.alignedTo 62 = y at hy ⊢
    have hpos : (0 : ℚ) < y.significand := by exact_mod_cast (Nat.two_pow_pos 62).trans_le hy.le
    have hdiv : (x.significand : ℚ) = y.significand * (x.significand / y.significand : ℕ) +
        (x.significand % y.significand : ℕ) := by
      exact_mod_cast (Nat.div_add_mod x.significand y.significand).symm
    have hrem : ((x.significand % y.significand : ℕ) : ℚ) < y.significand := by
      exact_mod_cast Nat.mod_lt _ (by exact_mod_cast hpos)
    have hquotient : x.value / y.value = signed (x.negative != y.negative)
        (x.significand / y.significand * 2 ^ (x.exponent - y.exponent) : ℚ) := by
      rw [value, value, signed_div_signed, zpow_sub₀ two_ne_zero, mul_div_mul_comm]
    rw [hquotient]
    refine Truncated.resolves_signed ⟨(x.significand % y.significand : ℕ) / y.significand,
      by positivity, (div_lt_one hpos).mpr hrem, ?_, ?_⟩ ?_ ?_
    · simp [hpos.ne']
    · simp only
      congr 1
      rw [hdiv]
      field_simp
    · calc x.significand / y.significand ≤ x.significand := Nat.div_le_self _ _
        _ < 2 ^ 127 := hx.lt
        _ < 2 ^ 128 := by norm_num
    · intro _
      rw [Nat.le_div_iff_mul_le (by exact_mod_cast hpos)]
      calc 2 ^ 62 * y.significand ≤ 2 ^ 63 * 2 ^ 63 := Nat.mul_le_mul (by norm_num) hy.lt.le
        _ = 2 ^ 126 := by norm_num
        _ ≤ x.significand := hx.le

end EV6.Exact
