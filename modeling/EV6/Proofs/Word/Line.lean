import EV6.Word.Address

namespace EV6

theorem Width.bytes_dvd_eight (w : Width) : w.bytes ∣ 8 := by cases w <;> decide

structure LineSize (n : Nat) : Prop where
  eight_le : 8 ≤ n
  pow : ∃ k, k < 64 ∧ n = 1 <<< k

namespace LineSize

variable {n : Nat}

theorem pos (h : LineSize n) : 0 < n := by
  have := h.eight_le
  omega

theorem eight_dvd (h : LineSize n) : 8 ∣ n := by
  have hle := h.eight_le
  obtain ⟨k, _, rfl⟩ := h.pow
  rw [Nat.one_shiftLeft] at hle ⊢
  exact Nat.pow_dvd_pow 2 ((Nat.pow_le_pow_iff_right Nat.one_lt_two).mp (show 2 ^ 3 ≤ 2 ^ _ from hle))

theorem lt_limit (h : LineSize n) : n < Machine.limit := by
  obtain ⟨k, hk, rfl⟩ := h.pow
  rw [Nat.one_shiftLeft]
  exact Nat.pow_lt_pow_right Nat.one_lt_two hk

theorem ofNat_sub_one (h : LineSize n) : BitVec.ofNat 64 n - 1 = BitVec.ofNat 64 (n - 1) := by
  have hpos := h.pos
  have hlt := h.lt_limit
  simp only [Machine.limit] at hlt
  apply BitVec.eq_of_toNat_eq
  simp [BitVec.toNat_sub]
  omega

theorem lineOffset_eq (h : LineSize n) (pa : Word) :
    Address.lineOffset pa n = pa.toNat % n := by
  have hlt := Nat.lt_of_le_of_lt (Nat.sub_le n 1) h.lt_limit
  rw [Address.lineOffset, h.ofNat_sub_one, BitVec.toNat_and, BitVec.toNat_ofNat]
  rw [Nat.mod_eq_of_lt (by exact hlt)]
  obtain ⟨k, hk, rfl⟩ := h.pow
  rw [Nat.one_shiftLeft, Nat.and_two_pow_sub_one_eq_mod]

theorem and_not_mask (pa : Word) (k : Nat) :
    pa &&& ~~~BitVec.ofNat 64 (1 <<< k - 1) = pa >>> k <<< k := by
  apply BitVec.eq_of_getLsbD_eq
  intro i hi
  simp only [Nat.one_shiftLeft, BitVec.getLsbD_and, BitVec.getLsbD_not, BitVec.getLsbD_ofNat,
    Nat.testBit_two_pow_sub_one, BitVec.getLsbD_shiftLeft, BitVec.getLsbD_ushiftRight, hi,
    decide_true, Bool.true_and]
  by_cases hik : i < k
  · simp [hik]
  · simp [hik, Nat.add_sub_cancel' (Nat.le_of_not_lt hik)]

theorem toNat_lineBase (h : LineSize n) (pa : Word) :
    (Address.lineBase pa n).toNat = pa.toNat / n * n := by
  rw [Address.lineBase, h.ofNat_sub_one]
  obtain ⟨k, hk, rfl⟩ := h.pow
  rw [and_not_mask, BitVec.toNat_shiftLeft, BitVec.toNat_ushiftRight, Nat.shiftLeft_eq,
    Nat.shiftRight_eq_div_pow, Nat.one_shiftLeft, Nat.mod_eq_of_lt]
  exact Nat.lt_of_le_of_lt (Nat.div_mul_le_self _ _) pa.isLt

theorem lineBase_div (h : LineSize n) (pa : Word) :
    (Address.lineBase pa n).toNat / n = pa.toNat / n := by
  rw [h.toNat_lineBase, Nat.mul_div_cancel _ h.pos]

theorem within (h : LineSize n) {addr length : Nat} (hd : length ∣ n) (ha : addr % length = 0) :
    addr % n + length ≤ n := by
  have hmod : addr % n % length = 0 := by
    rw [Nat.mod_mod_of_dvd _ hd, ha]
  obtain ⟨k, hk⟩ := Nat.dvd_of_mod_eq_zero hmod
  obtain ⟨parts, hparts⟩ := hd
  have hlt := Nat.mod_lt addr h.pos
  rw [hk, hparts] at hlt
  have hnext := Nat.mul_le_mul_left length (Nat.succ_le_of_lt (Nat.lt_of_mul_lt_mul_left hlt))
  rwa [Nat.mul_succ, ← hk, ← hparts] at hnext

end LineSize

end EV6
