import EV6.Storage.Bytes

namespace EV6.Word

variable {x y : Word} {j : Nat}

theorem getLsbD_byteAt (x : Word) (j : Nat) {k : Nat} (hk : k < 8) :
    (x.byteAt j).getLsbD k = x.getLsbD (8 * j + k) := by
  rw [byteAt, BitVec.getLsbD_extractLsb', decide_eq_true hk, Bool.true_and]

theorem eq_of_byteAt (h : ∀ j < 8, x.byteAt j = y.byteAt j) : x = y := by
  refine BitVec.eq_of_getLsbD_eq fun i hi => ?_
  have hbit := congrArg (·.getLsbD (i % 8)) (h (i / 8) (by omega))
  have hk : i % 8 < 8 := Nat.mod_lt _ (by decide)
  rwa [getLsbD_byteAt _ _ hk, getLsbD_byteAt _ _ hk, Nat.div_add_mod] at hbit

theorem byteAt_eq_zero (h : ∀ k < 8, x.getLsbD (8 * j + k) = false) : x.byteAt j = 0#8 := by
  refine BitVec.eq_of_getLsbD_eq fun k hk => ?_
  rw [getLsbD_byteAt _ _ hk, h k hk, BitVec.getLsbD_zero]

theorem byteAt_zero (j : Nat) : byteAt 0 j = 0#8 := byteAt_eq_zero fun _ _ => BitVec.getLsbD_zero

theorem byteAt_or (x y : Word) (j : Nat) : (x ||| y).byteAt j = x.byteAt j ||| y.byteAt j := by
  refine BitVec.eq_of_getLsbD_eq fun k hk => ?_
  simp only [getLsbD_byteAt _ _ hk, BitVec.getLsbD_or]

theorem byteAt_and (x y : Word) (j : Nat) : (x &&& y).byteAt j = x.byteAt j &&& y.byteAt j := by
  refine BitVec.eq_of_getLsbD_eq fun k hk => ?_
  simp only [getLsbD_byteAt _ _ hk, BitVec.getLsbD_and]

theorem byteAt_not (x : Word) (hj : j < 8) : (~~~x).byteAt j = ~~~x.byteAt j := by
  refine BitVec.eq_of_getLsbD_eq fun k hk => ?_
  have hbit : 8 * j + k < 64 := by omega
  simp only [getLsbD_byteAt _ _ hk, BitVec.getLsbD_not, hbit, hk]

theorem byteAt_shiftLeft (x : Word) (n : Nat) (hj : j < 8) :
    byteAt (x <<< (8 * n)) j = if n ≤ j then x.byteAt (j - n) else 0#8 := by
  split
  · rename_i hn
    refine BitVec.eq_of_getLsbD_eq fun k hk => ?_
    have hbit : 8 * j + k < 64 := by omega
    have hlow : ¬8 * j + k < 8 * n := by omega
    have hsub : 8 * j + k - 8 * n = 8 * (j - n) + k := by omega
    simp only [getLsbD_byteAt _ _ hk, BitVec.getLsbD_shiftLeft, hbit, hlow, hsub, decide_true,
      decide_false, Bool.not_false, Bool.true_and]
  · refine byteAt_eq_zero fun k hk => ?_
    have hlow : 8 * j + k < 8 * n := by omega
    simp only [BitVec.getLsbD_shiftLeft, hlow, decide_true, Bool.not_true, Bool.and_false,
      Bool.false_and]

theorem byteAt_ushiftRight (x : Word) (n j : Nat) :
    byteAt (x >>> (8 * n)) j = x.byteAt (n + j) := by
  refine BitVec.eq_of_getLsbD_eq fun k hk => ?_
  rw [getLsbD_byteAt _ _ hk, BitVec.getLsbD_ushiftRight, getLsbD_byteAt _ _ hk, Nat.mul_add,
    Nat.add_assoc]

theorem byteAt_ofBytes (bs : List Byte) (hj : j < 8) : (ofBytes bs).byteAt j = bs.getD j 0#8 := by
  induction bs generalizing j with
  | nil => exact byteAt_zero j
  | cons b bs ih =>
    have hcons : ofBytes (b :: bs) = (ofBytes bs <<< (8 * 1)) ||| b.setWidth 64 := rfl
    rw [hcons, byteAt_or, byteAt_shiftLeft _ _ hj]
    cases j with
    | zero =>
      refine BitVec.eq_of_getLsbD_eq fun k hk => ?_
      have hbit : k < 64 := by omega
      simp [getLsbD_byteAt _ _ hk, hbit]
    | succ j =>
      have hhigh : byteAt (b.setWidth 64) (j + 1) = 0#8 := by
        refine byteAt_eq_zero fun k _ => ?_
        rw [BitVec.getLsbD_setWidth, BitVec.getLsbD_of_ge b _ (by omega), Bool.and_false]
      rw [if_pos (Nat.le_add_left 1 j), hhigh, BitVec.or_zero, Nat.add_sub_cancel,
        ih (Nat.lt_of_succ_lt hj), List.getD_cons_succ]

theorem byteAt_mask (w : Width) (hj : j < 8) :
    w.mask.byteAt j = if j < w.bytes then BitVec.allOnes 8 else 0#8 := by
  have hall : ∀ j < 8, w.mask.byteAt j = if j < w.bytes then BitVec.allOnes 8 else 0#8 := by
    cases w <;> decide
  exact hall j hj

theorem byteAt_zeroExtend (x : Word) (w : Width) (hj : j < 8) :
    (x.zeroExtend w).byteAt j = if j < w.bytes then x.byteAt j else 0#8 := by
  rw [zeroExtend, byteAt_and, byteAt_mask _ hj]
  split
  · exact BitVec.and_allOnes
  · exact BitVec.and_zero

theorem zeroExtend_ofBytes {bs : List Byte} {w : Width} (h : bs.length = w.bytes) :
    (ofBytes bs).zeroExtend w = ofBytes bs := by
  refine eq_of_byteAt fun j hj => ?_
  rw [byteAt_zeroExtend _ _ hj, byteAt_ofBytes _ hj]
  split
  · rfl
  · rw [List.getD_eq_getElem?_getD, List.getElem?_eq_none (by omega)]
    rfl

theorem byteAt_lane (n : Nat) (hj : j < 8) :
    byteAt (0xFF#64 <<< (8 * n)) j = if j = n then BitVec.allOnes 8 else 0#8 := by
  have hbyte : byteAt 0xFF#64 (j - n) = if j - n < 1 then BitVec.allOnes 8 else 0#8 :=
    byteAt_mask .byte (by omega)
  rw [byteAt_shiftLeft _ _ hj, hbyte]
  rcases Nat.lt_trichotomy j n with hlt | rfl | hgt
  · rw [if_neg (by omega), if_neg (by omega)]
  · rw [if_pos (Nat.le_refl j), if_pos (by omega), if_pos rfl]
  · rw [if_pos (by omega), if_neg (by omega), if_neg (by omega)]

theorem byteAt_laneMask (lanes : BitVec 8) (hj : j < 8) :
    (laneMask lanes).byteAt j = if lanes.getLsbD j then BitVec.allOnes 8 else 0#8 := by
  have hfold (n : Nat) : byteAt ((List.range n).foldl
      (fun acc i => if lanes.getLsbD i then acc ||| (0xFF#64 <<< (8 * i)) else acc) 0#64) j =
        if j < n ∧ lanes.getLsbD j = true then BitVec.allOnes 8 else 0#8 := by
    induction n with
    | zero => simpa using byteAt_zero j
    | succ n ih =>
      rw [List.range_succ, List.foldl_append, List.foldl_cons, List.foldl_nil]
      have hstep : j < n + 1 ↔ j < n ∨ j = n := Nat.lt_succ_iff_lt_or_eq
      split
      · rename_i hlast
        rw [byteAt_or, ih, byteAt_lane _ hj]
        by_cases hn : j = n
        · simp [hn, hlast]
        · simp [hn, hstep]
      · rename_i hlast
        rw [ih]
        by_cases hn : j = n
        · simp [hn, hlast]
        · simp [hn, hstep]
  have hall := hfold 8
  simp only [hj, true_and] at hall
  exact hall

theorem byteAt_zapNot (x : Word) (lanes : BitVec 8) (hj : j < 8) :
    (zapNot x lanes).byteAt j = if lanes.getLsbD j then x.byteAt j else 0#8 := by
  rw [zapNot, byteAt_and, byteAt_laneMask _ hj]
  split
  · exact BitVec.and_allOnes
  · exact BitVec.and_zero

theorem byteAt_zap (x : Word) (lanes : BitVec 8) (hj : j < 8) :
    (zap x lanes).byteAt j = if lanes.getLsbD j then 0#8 else x.byteAt j := by
  rw [zap, byteAt_and, byteAt_not _ hj, byteAt_laneMask _ hj]
  split
  · rw [BitVec.not_allOnes, BitVec.and_zero]
  · rw [BitVec.not_zero, BitVec.and_allOnes]

end EV6.Word
