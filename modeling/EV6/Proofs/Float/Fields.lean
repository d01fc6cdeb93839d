import EV6.Float.MemoryFormat
import Mathlib.Tactic.Ring
import Mathlib.Tactic.SplitIfs

namespace EV6.MemoryFormat

theorem toNat_or_of_dvd {n k : Nat} {high low : BitVec n} (hhigh : 2 ^ k ∣ high.toNat)
    (hlow : low.toNat < 2 ^ k) : (high ||| low).toNat = high.toNat + low.toNat := by
  obtain ⟨q, hq⟩ := hhigh
  rw [BitVec.toNat_or, hq, Nat.two_pow_add_eq_or_of_lt hlow]

theorem toNat_shiftLeft_of_lt {n k : Nat} {w : BitVec n} (h : w.toNat * 2 ^ k < 2 ^ n) :
    (w <<< k).toNat = w.toNat * 2 ^ k := by
  rw [BitVec.toNat_shiftLeft, Nat.shiftLeft_eq, Nat.mod_eq_of_lt h]

theorem toNat_packed {n i j k : Nat} (sign exponent fraction : BitVec n) (hij : j ≤ i)
    (hsign : sign.toNat * 2 ^ i < 2 ^ n) (hexponent : exponent.toNat * 2 ^ j < 2 ^ i)
    (hfraction : fraction.toNat * 2 ^ k < 2 ^ j) (hi : i ≤ n) :
    (sign <<< i ||| exponent <<< j ||| fraction <<< k).toNat =
      sign.toNat * 2 ^ i + exponent.toNat * 2 ^ j + fraction.toNat * 2 ^ k := by
  have hn : 2 ^ i ≤ 2 ^ n := Nat.pow_le_pow_right Nat.two_pos hi
  have hi' : 2 ^ j ≤ 2 ^ i := Nat.pow_le_pow_right Nat.two_pos hij
  have hs := toNat_shiftLeft_of_lt hsign
  have he := toNat_shiftLeft_of_lt (Nat.lt_of_lt_of_le hexponent hn)
  have hf := toNat_shiftLeft_of_lt (Nat.lt_of_lt_of_le hfraction (Nat.le_trans hi' hn))
  have hhigh : (sign <<< i ||| exponent <<< j).toNat =
      sign.toNat * 2 ^ i + exponent.toNat * 2 ^ j := by
    rw [toNat_or_of_dvd (by rw [hs]; exact Nat.dvd_mul_left _ _) (by rwa [he]), hs, he]
  rw [toNat_or_of_dvd ?_ (by rwa [hf]), hhigh, hf]
  rw [hhigh]
  exact Nat.dvd_add (Nat.dvd_trans (Nat.pow_dvd_pow 2 hij) (Nat.dvd_mul_left _ _))
    (Nat.dvd_mul_left _ _)

theorem natCast_sign (n k : Nat) (negative : Bool) :
    ((if negative then 1 <<< k else 0 : Nat) : BitVec n) = BitVec.ofNat n negative.toNat <<< k := by
  cases negative with
  | false => simp
  | true =>
    apply BitVec.eq_of_toNat_eq
    change (BitVec.ofNat n (1 <<< k)).toNat = (BitVec.ofNat n 1 <<< k).toNat
    rw [BitVec.toNat_shiftLeft, BitVec.toNat_ofNat, BitVec.toNat_ofNat, Nat.shiftLeft_eq,
      Nat.shiftLeft_eq, Nat.mod_mul_mod]

theorem toNat_image {n k j i exponentBits fractionBits exponent fraction : Nat} (negative : Bool)
    (hn : n = k + 1) (hk : exponentBits + j = k) (hmid : fractionBits + i = j)
    (hexponent : exponent < 2 ^ exponentBits) (hfraction : fraction < 2 ^ fractionBits) :
    (((if negative then 1 <<< k else 0 : Nat) : BitVec n) ||| BitVec.ofNat n exponent <<< j
        ||| BitVec.ofNat n fraction <<< i).toNat =
      negative.toNat * 2 ^ k + exponent * 2 ^ j + fraction * 2 ^ i := by
  have hn' : 2 ^ n = 2 * 2 ^ k := by rw [hn, Nat.pow_succ, Nat.mul_comm]
  have hk' : exponent * 2 ^ j < 2 ^ k := by
    rw [← hk, Nat.pow_add]
    exact Nat.mul_lt_mul_of_pos_right hexponent (Nat.two_pow_pos j)
  have hmid' : fraction * 2 ^ i < 2 ^ j := by
    rw [← hmid, Nat.pow_add]
    exact Nat.mul_lt_mul_of_pos_right hfraction (Nat.two_pow_pos i)
  have hsmall : 2 ^ j ≤ 2 ^ k := Nat.pow_le_pow_right Nat.two_pos (by omega)
  have hsign : negative.toNat * 2 ^ k ≤ 1 * 2 ^ k := Nat.mul_le_mul_right _ negative.toNat_le
  have hnegative : negative.toNat < 2 ^ n := Nat.lt_of_le_of_lt negative.toNat_le
    (Nat.one_lt_two_pow (by omega))
  have hexponent' : exponent ≤ exponent * 2 ^ j := Nat.le_mul_of_pos_right _ (Nat.two_pow_pos j)
  have hfraction' : fraction ≤ fraction * 2 ^ i := Nat.le_mul_of_pos_right _ (Nat.two_pow_pos i)
  have h := toNat_packed (i := k) (j := j) (k := i) (BitVec.ofNat n negative.toNat)
    (BitVec.ofNat n exponent) (BitVec.ofNat n fraction)
  rw [BitVec.toNat_ofNat, BitVec.toNat_ofNat, BitVec.toNat_ofNat, Nat.mod_eq_of_lt hnegative,
    Nat.mod_eq_of_lt (by omega), Nat.mod_eq_of_lt (by omega)] at h
  rw [natCast_sign]
  have hpos := Nat.two_pow_pos k
  exact h (by omega) (by omega) hk' hmid' (by omega)

theorem fields_of_sum {image sign exponent fraction i j : Nat}
    (h : image = sign * 2 ^ (i + j) + exponent * 2 ^ j + fraction) (hexponent : exponent < 2 ^ i)
    (hfraction : fraction < 2 ^ j) : image / 2 ^ j % 2 ^ i = exponent ∧ image % 2 ^ j = fraction := by
  have hsum : image = fraction + 2 ^ j * (exponent + 2 ^ i * sign) := by
    rw [h]
    ring
  rw [hsum, Nat.add_mul_div_left _ _ (Nat.two_pow_pos j), Nat.div_eq_of_lt hfraction, Nat.zero_add,
    Nat.add_mul_mod_self_left, Nat.mod_eq_of_lt hexponent, Nat.add_mul_mod_self_left,
    Nat.mod_eq_of_lt hfraction]
  exact ⟨rfl, rfl⟩

theorem toNat_field (w : Word) (lo : Nat) {len : Nat} (h : len ≤ 64) :
    (field w lo len).toNat = w.toNat / 2 ^ lo % 2 ^ len := by
  have hmask : 2 ^ len - 1 < 2 ^ 64 := by
    have := Nat.pow_le_pow_right Nat.two_pos h
    have := Nat.two_pow_pos len
    omega
  rw [field, BitVec.toNat_and, BitVec.toNat_ushiftRight, BitVec.toNat_ofNat, Nat.one_shiftLeft,
    Nat.mod_eq_of_lt hmask, Nat.and_two_pow_sub_one_eq_mod, Nat.shiftRight_eq_div_pow]

def widened (exponent : Nat) : Nat :=
  if exponent = 0 then 0 else if exponent = 255 then 2047 else exponent + 896

theorem widened_lt {exponent : Nat} (h : exponent < 2 ^ 8) : widened exponent < 2048 := by
  unfold widened
  split_ifs <;> omega

theorem widened_eq_max {exponent : Nat} (h : exponent < 2 ^ 8) :
    widened exponent = 2047 ↔ exponent = 255 := by
  unfold widened
  split_ifs with hzero hones
  · simp [hzero]
  · simp [hones]
  · omega

def narrowed (exponent : Nat) : Nat := exponent / 2 ^ 10 * 2 ^ 7 + exponent % 2 ^ 7

theorem narrowed_lt {exponent : Nat} (h : exponent < 2 ^ 11) : narrowed exponent < 2 ^ 8 := by
  unfold narrowed
  omega

theorem narrowed_widened {exponent : Nat} (h : exponent < 2 ^ 8) :
    narrowed (widened exponent) = exponent := by
  unfold narrowed widened
  split_ifs <;> omega

theorem toNat_widenExponent {exponent : Word} (h : exponent.toNat < 2 ^ 8) :
    (widenExponent exponent true).toNat = widened exponent.toNat := by
  have hzero : exponent = 0 ↔ exponent.toNat = 0 := by simp [← BitVec.toNat_inj]
  have hones : exponent = 0xFF ↔ exponent.toNat = 255 := by simp [← BitVec.toNat_inj]
  simp only [widenExponent, widened, hzero, hones, Bool.and_true, decide_eq_true_eq]
  split_ifs
  · rfl
  · rfl
  · rw [BitVec.toNat_add, show (896 : Word).toNat = 896 from rfl]
    omega

theorem toNat_loadS (m : Longword) :
    (loadS m).toNat = m.toNat / 2 ^ 31 * 2 ^ 63 + widened (m.toNat / 2 ^ 23 % 2 ^ 8) * 2 ^ 52
      + m.toNat % 2 ^ 23 * 2 ^ 29 := by
  have hm := m.isLt
  have hwide : (m.setWidth 64).toNat = m.toNat := by
    rw [BitVec.toNat_setWidth]
    omega
  have hsign : (field (m.setWidth 64) 31 1).toNat = m.toNat / 2 ^ 31 := by
    rw [toNat_field _ _ (by decide), hwide]
    omega
  have hexponent : (widenExponent (field (m.setWidth 64) 23 8) true).toNat =
      widened (m.toNat / 2 ^ 23 % 2 ^ 8) := by
    have hfield := toNat_field (m.setWidth 64) 23 (show 8 ≤ 64 by decide)
    rw [toNat_widenExponent (by omega), hfield, hwide]
  have hfraction : (field (m.setWidth 64) 0 23).toNat = m.toNat % 2 ^ 23 := by
    rw [toNat_field _ _ (by decide), hwide]
    omega
  have hlt := widened_lt (Nat.mod_lt (m.toNat / 2 ^ 23) (by decide : 0 < 2 ^ 8))
  rw [loadS, toNat_packed _ _ _ (by decide) (by omega) (by omega) (by omega) (by decide), hsign,
    hexponent, hfraction]

theorem toNat_narrowExponent (reg : Word) :
    (narrowExponent reg).toNat = narrowed (reg.toNat / 2 ^ 52 % 2 ^ 11) := by
  have hhigh := toNat_field reg 62 (show 1 ≤ 64 by decide)
  have hlow := toNat_field reg 52 (show 7 ≤ 64 by decide)
  have hshift := toNat_shiftLeft_of_lt (w := field reg 62 1) (k := 7) (by omega)
  rw [narrowExponent, toNat_or_of_dvd (k := 7) (by rw [hshift]; exact Nat.dvd_mul_left _ _)
    (by omega), hshift, hhigh, hlow, narrowed]
  omega

theorem toNat_storeS (reg : Word) :
    (storeS reg).toNat = reg.toNat / 2 ^ 63 * 2 ^ 31
      + narrowed (reg.toNat / 2 ^ 52 % 2 ^ 11) * 2 ^ 23 + reg.toNat / 2 ^ 29 % 2 ^ 23 := by
  have hreg := reg.isLt
  have hsign := toNat_field reg 63 (show 1 ≤ 64 by decide)
  have hexponent := toNat_narrowExponent reg
  have hfraction := toNat_field reg 29 (show 23 ≤ 64 by decide)
  have hlt := narrowed_lt (Nat.mod_lt (reg.toNat / 2 ^ 52) (by decide : 0 < 2 ^ 11))
  have hpacked := toNat_packed (i := 31) (j := 23) (k := 0) (field reg 63 1) (narrowExponent reg)
    (field reg 29 23) (by decide) (by omega) (by omega) (by omega) (by decide)
  rw [BitVec.shiftLeft_zero] at hpacked
  rw [storeS, BitVec.toNat_setWidth, hpacked]
  omega

theorem storeS_loadS (m : Longword) : storeS (loadS m) = m := by
  have hm := m.isLt
  have hreg := toNat_loadS m
  have hlt := widened_lt (Nat.mod_lt (m.toNat / 2 ^ 23) (by decide : 0 < 2 ^ 8))
  have hnarrow := narrowed_widened (Nat.mod_lt (m.toNat / 2 ^ 23) (by decide : 0 < 2 ^ 8))
  generalize widened (m.toNat / 2 ^ 23 % 2 ^ 8) = exponent at *
  have hexponent : (loadS m).toNat / 2 ^ 52 % 2 ^ 11 = exponent := by omega
  apply BitVec.eq_of_toNat_eq
  rw [toNat_storeS, hexponent, hnarrow]
  omega

theorem msb_loadS (m : Longword) : (loadS m).msb = m.msb := by
  have hm := m.isLt
  have hreg := toNat_loadS m
  have hlt := widened_lt (Nat.mod_lt (m.toNat / 2 ^ 23) (by decide : 0 < 2 ^ 8))
  rw [BitVec.msb_eq_decide, BitVec.msb_eq_decide, decide_eq_decide]
  omega

def widenedF (exponent : Nat) : Nat := if exponent = 0 then 0 else exponent + 896

theorem widenedF_lt {exponent : Nat} (h : exponent < 2 ^ 8) : widenedF exponent < 2048 := by
  unfold widenedF
  split_ifs <;> omega

theorem toNat_widenExponent_vax {exponent : Word} (h : exponent.toNat < 2 ^ 8) :
    (widenExponent exponent false).toNat = widenedF exponent.toNat := by
  have hzero : exponent = 0 ↔ exponent.toNat = 0 := by simp [← BitVec.toNat_inj]
  simp only [widenExponent, widenedF, hzero, Bool.and_false, Bool.false_eq_true, if_false]
  split_ifs
  · rfl
  · rw [BitVec.toNat_add, show (896 : Word).toNat = 896 from rfl]
    omega

theorem toNat_loadF (m : Longword) :
    (loadF m).toNat = m.toNat / 2 ^ 15 % 2 * 2 ^ 63 + widenedF (m.toNat / 2 ^ 7 % 2 ^ 8) * 2 ^ 52
      + m.toNat % 2 ^ 7 * 2 ^ 45 + m.toNat / 2 ^ 16 * 2 ^ 29 := by
  have hm := m.isLt
  have hwide : (m.setWidth 64).toNat = m.toNat := by
    rw [BitVec.toNat_setWidth]
    omega
  have hfield (lo : Nat) {len : Nat} (h : len ≤ 64) :
      (field (m.setWidth 64) lo len).toNat = m.toNat / 2 ^ lo % 2 ^ len := by
    rw [toNat_field _ _ h, hwide]
  have hsign := hfield 15 (show 1 ≤ 64 by decide)
  have hhigh := hfield 0 (show 7 ≤ 64 by decide)
  have hlow := hfield 16 (show 16 ≤ 64 by decide)
  have hexponent : (widenExponent (field (m.setWidth 64) 7 8) false).toNat =
      widenedF (m.toNat / 2 ^ 7 % 2 ^ 8) := by
    have h := hfield 7 (show 8 ≤ 64 by decide)
    rw [toNat_widenExponent_vax (by omega), h]
  have hlt := widenedF_lt (Nat.mod_lt (m.toNat / 2 ^ 7) (by decide : 0 < 2 ^ 8))
  have hpacked := toNat_packed (i := 63) (j := 52) (k := 45) (field (m.setWidth 64) 15 1)
    (widenExponent (field (m.setWidth 64) 7 8) false) (field (m.setWidth 64) 0 7) (by decide)
    (by omega) (by omega) (by omega) (by decide)
  have hshift := toNat_shiftLeft_of_lt (w := field (m.setWidth 64) 16 16) (k := 29) (by omega)
  rw [loadF, toNat_or_of_dvd (k := 45) (by rw [hpacked]; omega) (by omega), hpacked, hshift, hsign,
    hexponent, hhigh, hlow]
  omega

theorem exponent_loadF (m : Longword) :
    (loadF m).toNat / 2 ^ 52 % 2 ^ 11 = widenedF (m.toNat / 2 ^ 7 % 2 ^ 8) := by
  have hm := m.isLt
  have hlt := widenedF_lt (Nat.mod_lt (m.toNat / 2 ^ 7) (by decide : 0 < 2 ^ 8))
  have hfraction : m.toNat % 2 ^ 7 * 2 ^ 45 + m.toNat / 2 ^ 16 * 2 ^ 29 < 2 ^ 52 := by omega
  have hsum := toNat_loadF m
  rw [Nat.add_assoc] at hsum
  exact (fields_of_sum hsum hlt hfraction).1

end EV6.MemoryFormat
