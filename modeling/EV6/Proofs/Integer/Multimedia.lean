import EV6.Integer.Unit
import EV6.Proofs.Word.Lanes
import Mathlib.Algebra.BigOperators.Group.Finset.Basic
import Mathlib.Algebra.Order.BigOperators.Group.Finset
/-!
Motion video lane by lane. What a fold puts into one lane does not reach another, so each lane of a
minimum or maximum is that of the operands' lanes alone; the error sum is one of eight distances;
and packing takes back what unpacking spread.
-/

namespace EV6

namespace Word

variable {j : Nat}

theorem extractLsb'_foldl_or {g : Nat → Word} {i n start len : Nat}
    (h : ∀ j < n, j ≠ i → (g j).extractLsb' start len = BitVec.ofNat len 0) :
    ((List.range n).foldl (fun acc j => acc ||| g j) 0).extractLsb' start len =
      if i < n then (g i).extractLsb' start len else BitVec.ofNat len 0 := by
  induction n with
  | zero => exact BitVec.extractLsb'_zero
  | succ n ih =>
    rw [List.range_succ, List.foldl_append, List.foldl_cons, List.foldl_nil, BitVec.extractLsb'_or,
      ih fun j hj => h j (Nat.lt_succ_of_lt hj)]
    -- the field is zero before the quadword that has it, and no later one changes it
    by_cases hn : n = i
    · rw [hn, if_neg (Nat.lt_irrefl i), if_pos (Nat.lt_succ_self i), BitVec.zero_or]
    · rw [h n (Nat.lt_succ_self n) hn, BitVec.or_zero]
      exact if_congr (by omega) rfl rfl

theorem byteAt_keep (x : Word) (n : Nat) (hj : j < 8) :
    byteAt (x &&& (0xFF#64 <<< (8 * n))) j = if j = n then x.byteAt n else 0#8 := by
  rw [byteAt_and, byteAt_lane n hj]
  split
  · rename_i heq
    rw [heq, BitVec.and_allOnes]
  · exact BitVec.and_zero

theorem byteAt_move (x : Word) (source target : Nat) (hj : j < 8) :
    byteAt (((x >>> (8 * source)) &&& 0xFF) <<< (8 * target)) j =
      if j = target then x.byteAt source else 0#8 := by
  have hbyte (k : Nat) (hk : k < 8) :
      byteAt ((x >>> (8 * source)) &&& 0xFF) k = if k = 0 then x.byteAt source else 0#8 := by
    refine (byteAt_keep (x >>> (8 * source)) 0 hk).trans ?_
    rw [byteAt_ushiftRight, Nat.add_zero]
  rw [byteAt_shiftLeft _ _ hj]
  rcases Nat.lt_trichotomy j target with hlt | rfl | hgt
  · rw [if_neg (by omega), if_neg (by omega)]
  · rw [if_pos (Nat.le_refl j), hbyte _ (by omega), if_pos (Nat.sub_self j), if_pos rfl]
  · rw [if_pos (by omega), hbyte _ (by omega), if_neg (by omega), if_neg (by omega)]

end Word

namespace Lanes

variable {l : Lanes} {f : Nat → Nat} {i j k : Nat}

def part (l : Lanes) (x : Word) (i : Nat) : BitVec l.bits := x.extractLsb' (i * l.bits) l.bits

def value (l : Lanes) (x : BitVec l.bits) : Int := if l.signed then x.toInt else x.toNat

theorem value_inj {x y : BitVec l.bits} : l.value x = l.value y ↔ x = y := by
  unfold value
  split
  · exact BitVec.toInt_inj
  · rw [Int.natCast_inj, BitVec.toNat_inj]

theorem lane_eq (l : Lanes) (x : Word) (i : Nat) : l.lane x i = (l.part x i).toNat := by
  rw [lane, part, BitVec.extractLsb'_toNat, Nat.one_shiftLeft]

theorem key_eq (l : Lanes) (x : Word) (i : Nat) : l.key x i = l.value (l.part x i) := by
  rw [key, value, lane_eq, BitVec.ofNat_toNat, BitVec.setWidth_eq]

theorem place_lt (hi : i < l.count) (hk : k < l.bits) : i * l.bits + k < 64 := by
  have hcount := l.bits_mul_count
  have hnext : (i + 1) * l.bits ≤ l.count * l.bits := Nat.mul_le_mul_right _ hi
  rw [Nat.succ_mul, Nat.mul_comm l.count] at hnext
  omega

theorem part_move {n : Nat} (hn : n < 2 ^ l.bits) (hi : i < l.count) :
    l.part (BitVec.ofNat 64 n <<< (j * l.bits)) i =
      if j = i then BitVec.ofNat l.bits n else BitVec.ofNat l.bits 0 := by
  refine BitVec.eq_of_getLsbD_eq fun k hk => ?_
  have hplace := place_lt hi hk
  rw [part, BitVec.getLsbD_extractLsb', BitVec.getLsbD_shiftLeft, BitVec.getLsbD_ofNat]
  -- a lane above would need a bit that `n` is too small for, and one below was shifted over
  rcases Nat.lt_trichotomy j i with hlt | rfl | hgt
  · have hbelow : (j + 1) * l.bits ≤ i * l.bits := Nat.mul_le_mul_right _ hlt
    rw [Nat.succ_mul] at hbelow
    have hbit : n.testBit (i * l.bits + k - j * l.bits) = false :=
      Nat.testBit_lt_two_pow (Nat.lt_of_lt_of_le hn (Nat.pow_le_pow_right (by decide) (by omega)))
    rw [hbit, if_neg (Nat.ne_of_lt hlt), Bool.and_false, Bool.and_false, Bool.and_false,
      BitVec.getLsbD_zero]
  · have hlow : ¬j * l.bits + k < j * l.bits := by omega
    have hword : k < 64 := by omega
    rw [if_pos rfl, BitVec.getLsbD_ofNat]
    simp only [hplace, hlow, hword, decide_true, decide_false, Bool.not_false, Bool.true_and,
      Nat.add_sub_cancel_left]
  · have habove : (i + 1) * l.bits ≤ j * l.bits := Nat.mul_le_mul_right _ hgt
    rw [Nat.succ_mul] at habove
    have hlow : i * l.bits + k < j * l.bits := by omega
    rw [decide_eq_true hlow, if_neg (Nat.ne_of_gt hgt), Bool.not_true, Bool.and_false,
      Bool.false_and, Bool.and_false, BitVec.getLsbD_zero]

theorem part_assemble (hf : ∀ j < l.count, f j < 2 ^ l.bits) (hi : i < l.count) :
    l.part (l.assemble f) i = BitVec.ofNat l.bits (f i) := by
  have hothers (j : Nat) (hj : j < l.count) (hne : j ≠ i) :
      l.part (BitVec.ofNat 64 (f j) <<< (j * l.bits)) i = BitVec.ofNat l.bits 0 := by
    rw [part_move (hf j hj) hi, if_neg hne]
  calc l.part (l.assemble f) i
    _ = if i < l.count then l.part (BitVec.ofNat 64 (f i) <<< (i * l.bits)) i
        else BitVec.ofNat l.bits 0 := Word.extractLsb'_foldl_or hothers
    _ = BitVec.ofNat l.bits (f i) := by rw [if_pos hi, part_move (hf i hi) hi, if_pos rfl]

structure Sorts (l : Lanes) (a b low high : Word) : Prop where
  lower : ∀ i < l.count, l.value (l.part low i) = min (l.value (l.part a i)) (l.value (l.part b i))
  upper : ∀ i < l.count, l.value (l.part high i) = max (l.value (l.part a i)) (l.value (l.part b i))
  both : ∀ i < l.count,
    l.part low i = l.part a i ∧ l.part high i = l.part b i ∨
      l.part low i = l.part b i ∧ l.part high i = l.part a i

end Lanes

def Extremum.ofIntegers : Extremum → Int → Int → Int
  | .min, x, y => Min.min x y
  | .max, x, y => Max.max x y

namespace Integer

open Word Lanes

variable {l : Lanes} {i j : Nat}

theorem part_extremum (which : Extremum) (a b : Word) (hi : i < l.count) :
    l.part (extremum which l a b) i =
      if picksFirst which (l.value (l.part a i)) (l.value (l.part b i)) then l.part a i
      else l.part b i := by
  have hlt (x : Word) (j : Nat) : l.lane x j < 2 ^ l.bits := by
    rw [lane_eq]
    exact (l.part x j).isLt
  rw [extremum, part_assemble (fun j _ => by split <;> exact hlt _ j) hi]
  simp only [key_eq, lane_eq]
  split <;> rw [BitVec.ofNat_toNat, BitVec.setWidth_eq]

theorem value_picked (which : Extremum) (x y : BitVec l.bits) :
    l.value (if picksFirst which (l.value x) (l.value y) then x else y) =
      which.ofIntegers (l.value x) (l.value y) := by
  cases which <;> simp only [picksFirst, Extremum.ofIntegers, decide_eq_true_eq] <;> split <;> omega

theorem value_extremum (which : Extremum) (a b : Word) (hi : i < l.count) :
    l.value (l.part (extremum which l a b) i) =
      which.ofIntegers (l.value (l.part a i)) (l.value (l.part b i)) := by
  rw [part_extremum which a b hi, value_picked]

theorem sorts_extremum (l : Lanes) (a b : Word) :
    l.Sorts a b (extremum .min l a b) (extremum .max l a b) where
  lower _ hi := value_extremum .min a b hi
  upper _ hi := value_extremum .max a b hi
  both i hi := by
    have hmin := value_extremum .min a b hi
    have hmax := value_extremum .max a b hi
    simp only [← value_inj, hmin, hmax, Extremum.ofIntegers]
    omega

theorem foldl_add_eq_sum (f : Nat → Nat) (n : Nat) :
    (List.range n).foldl (fun acc i => acc + f i) 0 = ∑ i ∈ Finset.range n, f i := by
  induction n with
  | zero => rfl
  | succ n ih =>
    rw [List.range_succ, List.foldl_append, List.foldl_cons, List.foldl_nil, ih,
      Finset.sum_range_succ]

theorem byteDistance_eq (a b : Word) (i : Nat) :
    byteDistance a b i = ((a.byteAt i).toNat - (b.byteAt i).toNat : Int).natAbs := by
  rw [byteDistance]
  omega

theorem byteDistance_lt (a b : Word) (i : Nat) : byteDistance a b i < 256 := by
  have ha := (a.byteAt i).isLt
  have hb := (b.byteAt i).isLt
  rw [byteDistance_eq]
  omega

theorem pixelError_comm (a b : Word) : pixelError a b = pixelError b a := by
  have hcomm : byteDistance a b = byteDistance b a := funext fun _ => Nat.add_comm _ _
  rw [pixelError, hcomm, ← pixelError]

theorem toNat_pixelError (a b : Word) :
    (pixelError a b).toNat =
      ∑ i ∈ Finset.range 8, ((a.byteAt i).toNat - (b.byteAt i).toNat : Int).natAbs := by
  have hsum : ∑ i ∈ Finset.range 8, byteDistance a b i ≤ 8 * 255 :=
    Finset.sum_le_card_nsmul _ _ _ fun i _ => Nat.le_of_lt_succ (byteDistance_lt a b i)
  rw [pixelError, foldl_add_eq_sum, BitVec.toNat_ofNat, Nat.mod_eq_of_lt (by omega)]
  exact Finset.sum_congr rfl fun i _ => byteDistance_eq a b i

theorem byteAt_packWords (x : Word) (hj : j < 8) :
    (packWords x).byteAt j = if j < 4 then x.byteAt (2 * j) else 0#8 := by
  have hmove (i : Nat) : byteAt (((x >>> (i * 16)) &&& 0xFF) <<< (i * 8)) j =
      if j = i then x.byteAt (2 * i) else 0#8 := by
    have hsource : i * 16 = 8 * (2 * i) := by omega
    rw [hsource, Nat.mul_comm i 8, byteAt_move _ _ _ hj]
  have hothers (i : Nat) (_ : i < 4) (hne : i ≠ j) := (hmove i).trans (if_neg (Ne.symm hne))
  rw [packWords, byteAt, extractLsb'_foldl_or hothers]
  exact if_congr Iff.rfl ((hmove j).trans (if_pos rfl)) rfl

theorem byteAt_unpackWords (x : Word) (hj : j < 4) :
    (unpackWords x).byteAt (2 * j) = x.byteAt j := by
  have hmove (i : Nat) : byteAt (((x >>> (i * 8)) &&& 0xFF) <<< (i * 16)) (2 * j) =
      if 2 * j = 2 * i then x.byteAt i else 0#8 := by
    have htarget : i * 16 = 8 * (2 * i) := by omega
    rw [htarget, Nat.mul_comm i 8, byteAt_move _ _ _ (by omega)]
  have hothers (i : Nat) (_ : i < 4) (hne : i ≠ j) :=
    (hmove i).trans (if_neg fun heq => hne (by omega))
  rw [unpackWords, byteAt, extractLsb'_foldl_or hothers, if_pos hj]
  exact (hmove j).trans (if_pos rfl)

theorem packWords_unpackWords (x : Word) : packWords (unpackWords x) = x.zeroExtend .long := by
  refine eq_of_byteAt fun j hj => ?_
  rw [byteAt_packWords _ hj, byteAt_zeroExtend _ _ hj, show Width.long.bytes = 4 from rfl]
  split
  · rename_i hlong
    exact byteAt_unpackWords x hlong
  · rfl

theorem or_of_places {n : Nat} (hn : n ≠ 0) (u v : Byte) :
    (if j = 0 then u else 0#8) ||| (if j = n then v else 0#8) =
      if j = 0 then u else if j = n then v else 0#8 := by
  split
  · rename_i hzero
    rw [if_neg fun heq => hn (heq.symm.trans hzero), BitVec.or_zero]
  · exact BitVec.zero_or

theorem byteAt_packLongs (x : Word) (hj : j < 8) :
    (packLongs x).byteAt j =
      if j = 0 then x.byteAt 0 else if j = 1 then x.byteAt 4 else 0#8 := by
  have hhigh : byteAt ((x >>> 24) &&& 0xFF00) j = if j = 1 then x.byteAt 4 else 0#8 := by
    refine (byteAt_keep (x >>> 24) 1 hj).trans ?_
    rw [← byteAt_ushiftRight x 3 1]
  rw [← or_of_places (by decide), ← hhigh, ← byteAt_keep x 0 hj]
  exact byteAt_or _ _ j

theorem byteAt_unpackLongs (x : Word) (hj : j < 8) :
    (unpackLongs x).byteAt j =
      if j = 0 then x.byteAt 0 else if j = 4 then x.byteAt 1 else 0#8 := by
  have hhigh : byteAt ((x &&& 0xFF00) <<< 24) j = if j = 4 then x.byteAt 1 else 0#8 := by
    have hkeep : byteAt (x &&& 0xFF00) (j - 3) = if j - 3 = 1 then x.byteAt 1 else 0#8 :=
      byteAt_keep x 1 (by omega)
    refine (byteAt_shiftLeft (x &&& 0xFF00) 3 hj).trans ?_
    rw [hkeep]
    grind
  rw [← or_of_places (by decide), ← hhigh, ← byteAt_keep x 0 hj]
  exact byteAt_or _ _ j

theorem packLongs_unpackLongs (x : Word) : packLongs (unpackLongs x) = x.zeroExtend .word := by
  refine eq_of_byteAt fun j hj => ?_
  rw [byteAt_packLongs _ hj, byteAt_zeroExtend _ _ hj, show Width.word.bytes = 2 from rfl,
    byteAt_unpackLongs _ (by decide), byteAt_unpackLongs _ (by decide)]
  grind

theorem multimedia_lane_wise (a b : Word) (bigEndian : Bool) :
    let run (op : MultimediaOp) (x y : Word) := execute (.integer (.multimedia op)) x y bigEndian
    (∀ l : Lanes, ∃ low high,
      run (.extremum .min l) a b = .ok (some low) ∧
      run (.extremum .max l) a b = .ok (some high) ∧ l.Sorts a b low high) ∧
    (∃ distance, run .pixelError a b = .ok (some distance) ∧
      run .pixelError b a = .ok (some distance) ∧
      distance.toNat =
        ∑ i ∈ Finset.range 8, ((a.byteAt i).toNat - (b.byteAt i).toNat : Int).natAbs) ∧
    (∃ spread, run .unpackWords a b = .ok (some spread) ∧
      ∀ c, run .packWords c spread = .ok (some (b.zeroExtend .long))) ∧
    ∃ spread, run .unpackLongs a b = .ok (some spread) ∧
      ∀ c, run .packLongs c spread = .ok (some (b.zeroExtend .word)) := by
  intro run
  refine ⟨fun l => ⟨_, _, rfl, rfl, sorts_extremum l a b⟩, ?_, ?_, ?_⟩
  · refine ⟨pixelError a b, rfl, ?_, toNat_pixelError a b⟩
    rw [pixelError_comm]
    rfl
  · exact ⟨unpackWords b, rfl, fun _ => congrArg (Except.ok ∘ some) (packWords_unpackWords b)⟩
  · exact ⟨unpackLongs b, rfl, fun _ => congrArg (Except.ok ∘ some) (packLongs_unpackLongs b)⟩

example : multimedia (.extremum .max ⟨true, true⟩) 0xFFFF0001 0x00010000 = 0x00010001 := by decide

end Integer

end EV6
