import EV6.Float.Exact
import Mathlib.Data.Int.Log
import Mathlib.Data.Rat.Floor
import Mathlib.Tactic.FieldSimp
import Mathlib.Tactic.Linarith
import Mathlib.Tactic.NormNum
import Mathlib.Tactic.Positivity
import Mathlib.Tactic.Ring

namespace EV6

def signed {α : Type} [Neg α] (negative : Bool) (a : α) : α := if negative then -a else a

namespace Rounding

def nearest (x : ℚ) (tie : ℤ) : ℤ :=
  if Int.fract x < 1 / 2 then ⌊x⌋ else if 1 / 2 < Int.fract x then ⌈x⌉ else tie

def toInt (r : Rounding) (x : ℚ) : ℤ :=
  match r with
  | chopped => if 0 ≤ x then ⌊x⌋ else ⌈x⌉
  | minusInfinity => ⌊x⌋
  | plusInfinity => ⌈x⌉
  | nearestEven => nearest x (if ⌊x⌋ % 2 = 0 then ⌊x⌋ else ⌈x⌉)
  | nearestAway => nearest x (if 0 ≤ x then ⌈x⌉ else ⌊x⌋)

def toGrid (r : Rounding) (lsb : ℤ) (x : ℚ) : ℚ := r.toInt (x / 2 ^ lsb) * 2 ^ lsb

def lastBitOf (precision : ℕ) (x : ℚ) : ℤ := Int.log 2 |x| - precision + 1

def toPrecision (r : Rounding) (precision : ℕ) (x : ℚ) : ℚ := r.toGrid (lastBitOf precision x) x

@[simp] theorem toInt_intCast (r : Rounding) (k : ℤ) : r.toInt k = k := by
  cases r <;> simp [toInt, nearest]

theorem toInt_eq_iff (r : Rounding) (x : ℚ) : (r.toInt x : ℚ) = x ↔ ∃ k : ℤ, x = k := by
  constructor
  · intro h
    exact ⟨_, h.symm⟩
  · rintro ⟨k, rfl⟩
    rw [toInt_intCast]

theorem toGrid_eq_iff (r : Rounding) (lsb : ℤ) (x : ℚ) :
    r.toGrid lsb x = x ↔ ∃ k : ℤ, x = k * 2 ^ lsb := by
  have hne : (2 : ℚ) ^ lsb ≠ 0 := (zpow_pos two_pos lsb).ne'
  rw [toGrid, ← eq_div_iff hne, toInt_eq_iff]
  simp only [div_eq_iff hne]

theorem floor_le_nearest (x : ℚ) {tie : ℤ} (h : ⌊x⌋ ≤ tie) : ⌊x⌋ ≤ nearest x tie := by
  rw [nearest]
  split_ifs
  · exact le_rfl
  · exact Int.floor_le_ceil x
  · exact h

theorem nearest_le_ceil (x : ℚ) {tie : ℤ} (h : tie ≤ ⌈x⌉) : nearest x tie ≤ ⌈x⌉ := by
  rw [nearest]
  split_ifs
  · exact Int.floor_le_ceil x
  · exact le_rfl
  · exact h

theorem floor_le_toInt (r : Rounding) (x : ℚ) : ⌊x⌋ ≤ r.toInt x := by
  have hle := Int.floor_le_ceil x
  cases r with
  | chopped =>
    rw [toInt]
    split_ifs <;> omega
  | minusInfinity => exact le_rfl
  | plusInfinity => exact hle
  | nearestEven =>
    apply floor_le_nearest
    split_ifs <;> omega
  | nearestAway =>
    apply floor_le_nearest
    split_ifs <;> omega

theorem toInt_le_ceil (r : Rounding) (x : ℚ) : r.toInt x ≤ ⌈x⌉ := by
  have hle := Int.floor_le_ceil x
  cases r with
  | chopped =>
    rw [toInt]
    split_ifs <;> omega
  | minusInfinity => exact hle
  | plusInfinity => exact le_rfl
  | nearestEven =>
    apply nearest_le_ceil
    split_ifs <;> omega
  | nearestAway =>
    apply nearest_le_ceil
    split_ifs <;> omega

theorem abs_toGrid_le (r : Rounding) {lsb : ℤ} {x : ℚ} {n : ℕ} (h : |x| ≤ n * 2 ^ lsb) :
    |r.toGrid lsb x| ≤ n * 2 ^ lsb := by
  have hpos : (0 : ℚ) < 2 ^ lsb := zpow_pos two_pos lsb
  have hdiv : |x / 2 ^ lsb| ≤ n := by rwa [abs_div, abs_of_pos hpos, div_le_iff₀ hpos]
  obtain ⟨hlo, hhi⟩ := abs_le.mp hdiv
  have hfloor : -(n : ℤ) ≤ ⌊x / 2 ^ lsb⌋ := Int.le_floor.mpr (by push_cast; exact hlo)
  have hceil : ⌈x / 2 ^ lsb⌉ ≤ (n : ℤ) := Int.ceil_le.mpr (by push_cast; exact hhi)
  have hint : |r.toInt (x / 2 ^ lsb)| ≤ (n : ℤ) :=
    abs_le.mpr ⟨hfloor.trans (r.floor_le_toInt _), (r.toInt_le_ceil _).trans hceil⟩
  rw [toGrid, abs_mul, abs_of_pos hpos]
  exact mul_le_mul_of_nonneg_right (by exact_mod_cast hint) hpos.le

end Rounding

namespace Tail

def ofFraction (δ : ℚ) : Tail :=
  if δ = 0 then exact else if δ < 1 / 2 then below else if δ = 1 / 2 then half else above

theorem ofFraction_eq_exact {δ : ℚ} : ofFraction δ = exact ↔ δ = 0 := by
  unfold ofFraction
  split_ifs <;> simp_all

end Tail

section Signed

variable {negative : Bool} {kept : ℕ} {δ m : ℚ}

theorem abs_signed (negative : Bool) (h : 0 ≤ m) : |signed negative m| = m := by
  cases negative <;> simp [signed, abs_of_nonneg h]

theorem signed_neg_iff (negative : Bool) (h : 0 < m) : signed negative m < 0 ↔ negative = true := by
  cases negative <;> simp [signed, h, h.le]

theorem signed_inj {a b : ℚ} : signed negative a = signed negative b ↔ a = b := by
  cases negative <;> simp [signed]

theorem signed_mul (negative : Bool) (a b : ℚ) : signed negative (a * b) = signed negative a * b := by
  cases negative <;> simp [signed]

theorem signed_add_signed (negative : Bool) (a b : ℚ) :
    signed negative a + signed negative b = signed negative (a + b) := by
  cases negative <;> simp [signed, add_comm]

theorem signed_add_signed_not (negative : Bool) (a b : ℚ) :
    signed negative a + signed (!negative) b = signed negative (a - b) := by
  cases negative <;> simp [signed, sub_eq_add_neg, add_comm]

theorem signed_mul_signed (m n : Bool) (a b : ℚ) :
    signed m a * signed n b = signed (m != n) (a * b) := by
  cases m <;> cases n <;> simp [signed]

theorem signed_div_signed (m n : Bool) (a b : ℚ) :
    signed m a / signed n b = signed (m != n) (a / b) := by
  cases m <;> cases n <;> simp [signed, neg_div, div_neg]

theorem signed_natCast (negative : Bool) (k : ℕ) :
    signed negative (k : ℚ) = (signed negative (k : ℤ) : ℤ) := by
  cases negative <;> simp [signed]

theorem floor_signed (negative : Bool) (kept : ℕ) (h0 : 0 < δ) (h1 : δ < 1) :
    ⌊signed negative ((kept : ℚ) + δ)⌋ = if negative then -((kept : ℤ) + 1) else kept := by
  cases negative <;> simp only [signed, Int.floor_eq_iff] <;> push_cast <;>
    exact ⟨by linarith, by linarith⟩

theorem ceil_signed (negative : Bool) (kept : ℕ) (h0 : 0 < δ) (h1 : δ < 1) :
    ⌈signed negative ((kept : ℚ) + δ)⌉ = if negative then -(kept : ℤ) else kept + 1 := by
  cases negative <;> simp only [signed, Int.ceil_eq_iff] <;> push_cast <;>
    exact ⟨by linarith, by linarith⟩

theorem fract_signed (negative : Bool) (kept : ℕ) (h0 : 0 < δ) (h1 : δ < 1) :
    Int.fract (signed negative ((kept : ℚ) + δ)) = if negative then 1 - δ else δ := by
  rw [Int.fract, floor_signed negative kept h0 h1]
  cases negative
  · simp [signed]
  · simp only [signed, if_true]
    push_cast
    ring

theorem nearest_signed (negative : Bool) (kept : ℕ) (h0 : 0 < δ) (h1 : δ < 1) (tie : ℤ) :
    Rounding.nearest (signed negative ((kept : ℚ) + δ)) tie =
      match Tail.ofFraction δ with
      | .exact | .below => signed negative (kept : ℤ)
      | .half => tie
      | .above => signed negative (kept + 1 : ℤ) := by
  rw [Rounding.nearest, fract_signed negative kept h0 h1, floor_signed negative kept h0 h1,
    ceil_signed negative kept h0 h1, Tail.ofFraction, if_neg h0.ne']
  rcases lt_trichotomy δ (1 / 2) with h | rfl | h
  · have h' : 1 / 2 < 1 - δ := by linarith
    cases negative <;> simp [-one_div, signed, h, h', h'.le]
  · cases negative <;> norm_num [signed]
  · have h' : 1 - δ < 1 / 2 := by linarith
    cases negative <;> simp [-one_div, signed, h, h', h.not_gt, h.ne']

end Signed

namespace Rounding

theorem toInt_signed (r : Rounding) (negative : Bool) (kept : ℕ) {δ : ℚ} (h0 : 0 ≤ δ)
    (h1 : δ < 1) :
    r.toInt (signed negative (kept + δ)) =
      signed negative ((kept +
        ((Tail.ofFraction δ).increments r negative (kept % 2 == 1)).toNat : ℕ) : ℤ) := by
  rcases h0.eq_or_lt with rfl | hpos
  · rw [add_zero, signed_natCast, toInt_intCast]
    simp [Tail.ofFraction, Tail.increments]
  · have hfloor := floor_signed negative kept hpos h1
    have hceil := ceil_signed negative kept hpos h1
    have hnearest := nearest_signed negative kept hpos h1
    have hsign := signed_neg_iff negative (show 0 < (kept : ℚ) + δ by positivity)
    have hodd : ((kept % 2 == 1).toNat : ℤ) = kept % 2 := by
      rcases Nat.mod_two_eq_zero_or_one kept with h | h <;> simp [h] <;> omega
    have htail : Tail.ofFraction δ ≠ .exact := Tail.ofFraction_eq_exact.not.mpr hpos.ne'
    generalize signed negative ((kept : ℚ) + δ) = x at *
    generalize Tail.ofFraction δ = tail at *
    cases tail with
    | exact => exact absurd rfl htail
    | below => cases r <;> cases negative <;> simp_all [toInt, Tail.increments, signed]
    | half =>
      cases r <;> cases negative <;> simp_all [toInt, Tail.increments, signed] <;> split_ifs <;> omega
    | above => cases r <;> cases negative <;> simp_all [toInt, Tail.increments, signed]

end Rounding

end EV6
