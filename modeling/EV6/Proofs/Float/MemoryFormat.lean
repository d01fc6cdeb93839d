import EV6.Proofs.Float.Fields

namespace EV6.MemoryFormat

def registerExponent (reg : Word) : Nat := reg.toNat / 2 ^ 52 % 2 ^ 11

theorem registerExponent_lt (reg : Word) : registerExponent reg < 2 ^ 11 :=
  Nat.mod_lt _ (by decide)

theorem widened_narrowed_iff {exponent : Nat} (h : exponent < 2 ^ 11) :
    widened (narrowed exponent) = exponent ↔
      exponent = 0 ∨ 897 ≤ exponent ∧ exponent ≤ 1150 ∨ exponent = 2047 := by
  unfold widened narrowed
  split_ifs <;> omega

theorem widenedF_narrowed_iff {exponent : Nat} (h : exponent < 2 ^ 11) :
    widenedF (narrowed exponent) = exponent ↔
      exponent = 0 ∨ 897 ≤ exponent ∧ exponent ≤ 1151 := by
  unfold widenedF narrowed
  split_ifs <;> omega

theorem narrowed_widenedF {exponent : Nat} (h : exponent < 2 ^ 8) :
    narrowed (widenedF exponent) = exponent := by
  unfold narrowed widenedF
  split_ifs <;> omega

theorem recomposed_iff (reg : Word) {exponent : Nat} (h : exponent < 2 ^ 11) :
    reg.toNat / 2 ^ 63 * 2 ^ 63 + exponent * 2 ^ 52 + reg.toNat / 2 ^ 29 % 2 ^ 23 * 2 ^ 29 =
        reg.toNat ↔
      reg.toNat % 2 ^ 29 = 0 ∧ exponent = registerExponent reg := by
  have hreg := reg.isLt
  unfold registerExponent
  omega

theorem toNat_loadS_storeS (reg : Word) :
    (loadS (storeS reg)).toNat = reg.toNat / 2 ^ 63 * 2 ^ 63
      + widened (narrowed (registerExponent reg)) * 2 ^ 52
      + reg.toNat / 2 ^ 29 % 2 ^ 23 * 2 ^ 29 := by
  have hlt := narrowed_lt (registerExponent_lt reg)
  have hfraction := Nat.mod_lt (reg.toNat / 2 ^ 29) (by decide : 0 < 2 ^ 23)
  have hstore := toNat_storeS reg
  rw [← registerExponent] at hstore
  generalize narrowed (registerExponent reg) = exponent at *
  have hexponent : (storeS reg).toNat / 2 ^ 23 % 2 ^ 8 = exponent := by omega
  rw [toNat_loadS, hexponent]
  omega

theorem loadS_storeS_iff (reg : Word) : loadS (storeS reg) = reg ↔
    reg.toNat % 2 ^ 29 = 0 ∧ (registerExponent reg = 0 ∨
      897 ≤ registerExponent reg ∧ registerExponent reg ≤ 1150 ∨ registerExponent reg = 2047) := by
  have hexponent := registerExponent_lt reg
  rw [← BitVec.toNat_inj, toNat_loadS_storeS,
    recomposed_iff reg (widened_lt (narrowed_lt hexponent)), widened_narrowed_iff hexponent]

theorem fields_of_sumF {image low sign exponent high : Nat}
    (h : image = low * 2 ^ 16 + sign * 2 ^ 15 + exponent * 2 ^ 7 + high) (hsign : sign < 2)
    (hexponent : exponent < 2 ^ 8) (hhigh : high < 2 ^ 7) :
    image / 2 ^ 16 = low ∧ image / 2 ^ 15 % 2 = sign ∧ image / 2 ^ 7 % 2 ^ 8 = exponent ∧
      image % 2 ^ 7 = high := by
  omega

theorem sum_of_fieldsF (image : Nat) :
    image / 2 ^ 16 * 2 ^ 16 + image / 2 ^ 15 % 2 * 2 ^ 15 + image / 2 ^ 7 % 2 ^ 8 * 2 ^ 7
      + image % 2 ^ 7 = image := by
  omega

theorem fields_of_registerF {image sign exponent high low : Nat}
    (h : image = sign * 2 ^ 63 + exponent * 2 ^ 52 + high * 2 ^ 45 + low * 2 ^ 29)
    (hexponent : exponent < 2 ^ 11) (hhigh : high < 2 ^ 7) (hlow : low < 2 ^ 16) :
    image / 2 ^ 63 = sign ∧ image / 2 ^ 52 % 2 ^ 11 = exponent ∧ image / 2 ^ 45 % 2 ^ 7 = high ∧
      image / 2 ^ 29 % 2 ^ 16 = low := by
  omega

theorem toNat_storeF (reg : Word) :
    (storeF reg).toNat = reg.toNat / 2 ^ 29 % 2 ^ 16 * 2 ^ 16 + reg.toNat / 2 ^ 63 * 2 ^ 15
      + narrowed (registerExponent reg) * 2 ^ 7 + reg.toNat / 2 ^ 45 % 2 ^ 7 := by
  have hreg := reg.isLt
  have hlow := toNat_field reg 29 (show 16 ≤ 64 by decide)
  have hsign : (field reg 63 1).toNat = reg.toNat / 2 ^ 63 := by
    rw [toNat_field _ _ (by decide)]
    omega
  have hhigh := toNat_field reg 45 (show 7 ≤ 64 by decide)
  have hexponent : (narrowExponent reg).toNat = narrowed (registerExponent reg) :=
    toNat_narrowExponent reg
  have hlt := narrowed_lt (registerExponent_lt reg)
  have hpacked := toNat_packed (i := 16) (j := 15) (k := 7) (field reg 29 16) (field reg 63 1)
    (narrowExponent reg) (by decide) (by omega) (by omega) (by omega) (by decide)
  rw [storeF, BitVec.toNat_setWidth, toNat_or_of_dvd (k := 7) (by rw [hpacked]; omega) (by omega),
    hpacked, hlow, hsign, hexponent, hhigh]
  refine Nat.mod_eq_of_lt ?_
  omega

theorem toNat_loadF_storeF (reg : Word) :
    (loadF (storeF reg)).toNat = reg.toNat / 2 ^ 63 * 2 ^ 63
      + widenedF (narrowed (registerExponent reg)) * 2 ^ 52
      + reg.toNat / 2 ^ 29 % 2 ^ 23 * 2 ^ 29 := by
  have hreg := reg.isLt
  have hfraction : reg.toNat / 2 ^ 29 % 2 ^ 23 =
      reg.toNat / 2 ^ 45 % 2 ^ 7 * 2 ^ 16 + reg.toNat / 2 ^ 29 % 2 ^ 16 := by omega
  obtain ⟨hlow, hsign, hexponent, hhigh⟩ := fields_of_sumF (toNat_storeF reg) (by omega)
    (narrowed_lt (registerExponent_lt reg)) (Nat.mod_lt _ (by decide))
  rw [toNat_loadF, hlow, hsign, hexponent, hhigh, hfraction]
  ring

theorem loadF_storeF_iff (reg : Word) : loadF (storeF reg) = reg ↔
    reg.toNat % 2 ^ 29 = 0 ∧ (registerExponent reg = 0 ∨
      897 ≤ registerExponent reg ∧ registerExponent reg ≤ 1151) := by
  have hexponent := registerExponent_lt reg
  rw [← BitVec.toNat_inj, toNat_loadF_storeF,
    recomposed_iff reg (widenedF_lt (narrowed_lt hexponent)), widenedF_narrowed_iff hexponent]

theorem storeF_loadF (m : Longword) : storeF (loadF m) = m := by
  have hm := m.isLt
  have hlt := Nat.mod_lt (m.toNat / 2 ^ 7) (by decide : 0 < 2 ^ 8)
  obtain ⟨hsign, hexponent, hhigh, hlow⟩ := fields_of_registerF (toNat_loadF m) (widenedF_lt hlt)
    (Nat.mod_lt _ (by decide)) (by omega)
  apply BitVec.eq_of_toNat_eq
  rw [toNat_storeF, registerExponent, hsign, hexponent, hhigh, hlow, narrowed_widenedF hlt,
    sum_of_fieldsF]

theorem toNat_loadG (v : Word) :
    (loadG v).toNat = v.toNat % 2 ^ 16 * 2 ^ 48 + v.toNat / 2 ^ 16 % 2 ^ 16 * 2 ^ 32
      + v.toNat / 2 ^ 32 % 2 ^ 16 * 2 ^ 16 + v.toNat / 2 ^ 48 := by
  have hv := v.isLt
  have hfield (lo : Nat) := toNat_field v lo (show 16 ≤ 64 by decide)
  have hlow : (field v 0 16).toNat = v.toNat % 2 ^ 16 := by rw [hfield, Nat.pow_zero, Nat.div_one]
  have hhigh : (field v 48 16).toNat = v.toNat / 2 ^ 48 := by
    rw [hfield]
    omega
  have hpacked := toNat_packed (i := 48) (j := 32) (k := 16) (field v 0 16) (field v 16 16)
    (field v 32 16) (by decide) (by omega) (by rw [hfield]; omega) (by rw [hfield]; omega)
    (by decide)
  rw [loadG, toNat_or_of_dvd (k := 16) (by rw [hpacked]; omega) (by omega), hpacked, hlow, hfield,
    hfield, hhigh]

theorem words_of_sum {image a b c d : Nat}
    (h : image = a * 2 ^ 48 + b * 2 ^ 32 + c * 2 ^ 16 + d) (hb : b < 2 ^ 16) (hc : c < 2 ^ 16)
    (hd : d < 2 ^ 16) :
    image / 2 ^ 48 = a ∧ image / 2 ^ 32 % 2 ^ 16 = b ∧ image / 2 ^ 16 % 2 ^ 16 = c ∧
      image % 2 ^ 16 = d := by
  omega

theorem sum_of_words (image : Nat) :
    image / 2 ^ 48 * 2 ^ 48 + image / 2 ^ 32 % 2 ^ 16 * 2 ^ 32 + image / 2 ^ 16 % 2 ^ 16 * 2 ^ 16
      + image % 2 ^ 16 = image := by
  omega

theorem loadG_loadG (v : Word) : loadG (loadG v) = v := by
  have hv := v.isLt
  obtain ⟨h3, h2, h1, h0⟩ := words_of_sum (toNat_loadG v) (Nat.mod_lt _ (by decide))
    (Nat.mod_lt _ (by decide)) (by omega)
  apply BitVec.eq_of_toNat_eq
  rw [toNat_loadG, h0, h1, h2, h3, sum_of_words]

theorem toNat_longwordToRegister (x : Longword) :
    (longwordToRegister x).toNat = x.toNat / 2 ^ 30 * 2 ^ 62 + x.toNat % 2 ^ 30 * 2 ^ 29 := by
  have hx := x.isLt
  have hwide : (x.setWidth 64).toNat = x.toNat := by
    rw [BitVec.toNat_setWidth]
    omega
  have hhigh : (field (x.setWidth 64) 30 2).toNat = x.toNat / 2 ^ 30 := by
    rw [toNat_field _ _ (by decide), hwide]
    omega
  have hlow : (field (x.setWidth 64) 0 30).toNat = x.toNat % 2 ^ 30 := by
    rw [toNat_field _ _ (by decide), hwide, Nat.pow_zero, Nat.div_one]
  have hshift := toNat_shiftLeft_of_lt (w := field (x.setWidth 64) 30 2) (k := 62) (by omega)
  have hshift' := toNat_shiftLeft_of_lt (w := field (x.setWidth 64) 0 30) (k := 29) (by omega)
  rw [longwordToRegister, toNat_or_of_dvd (k := 62) (by rw [hshift]; exact Nat.dvd_mul_left _ _)
    (by omega), hshift, hshift', hhigh, hlow]

theorem longword_of_register (x : Longword) :
    ((field (longwordToRegister x) 62 2 <<< 30) ||| field (longwordToRegister x) 29 30).setWidth 32 =
      x := by
  have hx := x.isLt
  have hreg := toNat_longwordToRegister x
  have hhigh : (field (longwordToRegister x) 62 2).toNat = x.toNat / 2 ^ 30 := by
    rw [toNat_field _ _ (by decide)]
    omega
  have hlow : (field (longwordToRegister x) 29 30).toNat = x.toNat % 2 ^ 30 := by
    rw [toNat_field _ _ (by decide)]
    omega
  have hshift := toNat_shiftLeft_of_lt (w := field (longwordToRegister x) 62 2) (k := 30) (by omega)
  apply BitVec.eq_of_toNat_eq
  rw [BitVec.toNat_setWidth, toNat_or_of_dvd (k := 30) (by rw [hshift]; exact Nat.dvd_mul_left _ _)
    (by omega), hshift, hhigh, hlow]
  omega

theorem registerToLongword_longwordToRegister (x : Longword) :
    registerToLongword (longwordToRegister x) = x.signExtend 64 :=
  congrArg (BitVec.signExtend 64) (longword_of_register x)

theorem setWidth_floatToS (reg : Word) : (floatToS reg).setWidth 32 = storeS reg := by
  refine BitVec.eq_of_getLsbD_eq fun i hi => ?_
  have hi' : i < 64 := by omega
  rw [floatToS, Word.signExtend, BitVec.getLsbD_setWidth, BitVec.getLsbD_signExtend]
  simp [Width.bits, Width.bytes, hi, hi']

theorem formats_round_trip :
    (∀ m : Longword, storeF (loadF m) = m ∧ storeS (loadS m) = m ∧
      (floatToS (loadS m)).setWidth 32 = m) ∧
    (∀ v : Word, loadG (storeG v) = v ∧ storeG (loadG v) = v) ∧
    (∀ x : Longword, registerToLongword (longwordToRegister x) = x.signExtend 64) ∧
    ∀ reg : Word,
      (loadF (storeF reg) = reg ↔ reg.toNat % 2 ^ 29 = 0 ∧
        (registerExponent reg = 0 ∨ 897 ≤ registerExponent reg ∧ registerExponent reg ≤ 1151)) ∧
      (loadS (storeS reg) = reg ↔ reg.toNat % 2 ^ 29 = 0 ∧
        (registerExponent reg = 0 ∨ 897 ≤ registerExponent reg ∧ registerExponent reg ≤ 1150 ∨
          registerExponent reg = 2047)) := by
  refine ⟨fun m => ⟨storeF_loadF m, storeS_loadS m, ?_⟩, fun v => ⟨loadG_loadG v, loadG_loadG v⟩,
    registerToLongword_longwordToRegister, fun reg => ⟨loadF_storeF_iff reg, loadS_storeS_iff reg⟩⟩
  rw [setWidth_floatToS, storeS_loadS]

end EV6.MemoryFormat
