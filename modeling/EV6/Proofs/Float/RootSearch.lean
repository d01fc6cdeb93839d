import EV6.Float.Bounded
import EV6.Proofs.Float.Root
/-!
The search for an integer root ends, for every value of 128 bits, with the floor of the root, and
nothing overflows on the way. The passes of its two loops are counted: together they are one for each
pair of bits.
-/

namespace EV6

/-- A loop that ends: `n` passes lead from `s` to `t`, where it does not go on. Each body answers. -/
inductive Passes {σ : Type} (goesOn : σ → Bool) (body : σ → Except Breach σ) : ℕ → σ → σ → Prop where
  | done {s : σ} (h : goesOn s = false) : Passes goesOn body 0 s s
  | pass {n : ℕ} {s t u : σ} (h : goesOn s = true) (hbody : body s = .ok t)
      (rest : Passes goesOn body n t u) : Passes goesOn body (n + 1) s u

theorem highest_zero : 4 ^ 0 >>> 2 = 0 := rfl

theorem highest_succ (pairs : ℕ) : 4 ^ (pairs + 1) >>> 2 = 4 ^ pairs := by
  rw [Nat.shiftRight_eq_div_pow, pow_succ]
  exact Nat.mul_div_cancel _ (by norm_num)

namespace RootSearch

variable {value pairs r : ℕ} {s t : RootSearch}

abbrev Skips (value : ℕ) : ℕ → ℕ → ℕ → Prop :=
  Passes (fun weight => value < weight) (fun weight => .ok (weight >>> 2))

theorem firstWeight_eq {n weight last : ℕ} (h : Skips value n weight last) :
    firstWeight value weight = last := by
  induction h with
  | done h => rw [firstWeight, if_neg (by simpa using h)]
  | pass h hbody _ ih =>
    cases hbody
    rw [firstWeight, if_pos (by simpa using h), ih]

theorem exists_skips (h : value < 4 ^ pairs) :
    ∃ n left, Skips value n (4 ^ pairs >>> 2) (4 ^ left >>> 2) ∧ n + left = pairs ∧
      value < 4 ^ left := by
  induction pairs with
  | zero => exact ⟨0, 0, .done (by simp), rfl, h⟩
  | succ pairs ih =>
    by_cases hweight : value < 4 ^ pairs
    · obtain ⟨n, left, hskips, hsum, hlt⟩ := ih hweight
      refine ⟨n + 1, left, .pass ?_ rfl ?_, by omega, hlt⟩
      · rw [highest_succ]
        exact decide_eq_true hweight
      · rw [highest_succ]
        exact hskips
    · refine ⟨0, pairs + 1, .done ?_, zero_add _, h⟩
      rw [highest_succ]
      exact decide_eq_false hweight

abbrev Decides : ℕ → RootSearch → RootSearch → Prop :=
  Passes (fun s => s.weight != 0) step

theorem run_eq {n : ℕ} (h : Decides n s t) : s.run = .ok t.root := by
  induction h with
  | done h => rw [run, if_pos (by simpa using h)]
  | pass h hbody _ ih =>
    rw [run, if_neg (by simpa using h)]
    split <;> simp_all

structure Found (s : RootSearch) (value pairs r : ℕ) : Prop where
  leaves : Exact.RootLeaves value pairs r s.remainder
  root : s.root = r * 4 ^ pairs
  weight : s.weight = 4 ^ pairs >>> 2

theorem Found.digit_lt (h : s.Found value (pairs + 1) r) (hvalue : value < 2 ^ 128)
    (hpairs : pairs < 64) : s.root + s.weight < 2 ^ 128 := by
  have hfits : r * 4 ^ (pairs + 1) < 4 ^ (64 - (pairs + 1)) * 4 ^ (pairs + 1) := by
    rw [← pow_add, Nat.sub_add_cancel hpairs]
    calc r * 4 ^ (pairs + 1) ≤ r * r * 4 ^ (pairs + 1) :=
          Nat.mul_le_mul_right _ (Nat.le_mul_self r)
      _ ≤ value := by
        rw [h.leaves.eq]
        exact Nat.le_add_left _ _
      _ < 2 ^ 128 := hvalue
      _ = 4 ^ 64 := by norm_num
  -- Both sides are multiples of the weight, so that there is room for a whole one.
  have hr : r + 1 ≤ 4 ^ (64 - (pairs + 1)) := Nat.lt_of_mul_lt_mul_right hfits
  rw [h.root, h.weight, highest_succ]
  calc r * 4 ^ (pairs + 1) + 4 ^ pairs < r * 4 ^ (pairs + 1) + 4 ^ (pairs + 1) :=
        Nat.add_lt_add_left (Nat.pow_lt_pow_right (by norm_num) pairs.lt_succ_self) _
    _ = (r + 1) * 4 ^ (pairs + 1) := (Nat.succ_mul _ _).symm
    _ ≤ 4 ^ (64 - (pairs + 1)) * 4 ^ (pairs + 1) := Nat.mul_le_mul_right _ hr
    _ = 2 ^ 128 := by
      rw [← pow_add, Nat.sub_add_cancel hpairs]
      norm_num

theorem step_eq (h : s.root + s.weight < 2 ^ 128) :
    s.step = .ok (if s.root + s.weight ≤ s.remainder then
      ⟨s.remainder - (s.root + s.weight), (s.root >>> 1) + s.weight, s.weight >>> 2⟩
    else ⟨s.remainder, s.root >>> 1, s.weight >>> 2⟩) := by
  have hhalf : s.root >>> 1 ≤ s.root := Nat.shiftRight_le _ _
  have hdigit : Magnitude.add s.root s.weight = .ok (s.root + s.weight) :=
    Magnitude.add_eq_ok_iff.mpr ⟨rfl, h⟩
  have hroot : Magnitude.add (s.root >>> 1) s.weight = .ok ((s.root >>> 1) + s.weight) :=
    Magnitude.add_eq_ok_iff.mpr ⟨rfl, (Nat.add_le_add_right hhalf _).trans_lt h⟩
  rw [step, hdigit]
  simp only [bind, Except.bind, hroot]
  split_ifs with hle
  · rw [Machine.sub_eq_ok_iff.mpr ⟨hle, rfl⟩]
    rfl
  · rfl

theorem Found.step (h : s.Found value (pairs + 1) r) (hvalue : value < 2 ^ 128)
    (hpairs : pairs < 64) : ∃ t r', s.step = .ok t ∧ t.Found value pairs r' := by
  have hweight : s.weight = 4 ^ pairs := h.weight.trans (highest_succ pairs)
  have hhalf : s.root >>> 1 = r * 4 ^ (pairs + 1) / 2 := by
    rw [h.root, Nat.shiftRight_eq_div_pow, pow_one]
  have hleaves := h.leaves
  have hstep := step_eq (h.digit_lt hvalue hpairs)
  split_ifs at hstep with hdigit <;> rw [h.root, hweight] at hdigit
  -- The digit is one where it fits in what is left, and zero elsewhere.
  · refine ⟨_, 2 * r + 1, hstep, ?_, ?_, ?_⟩
    · simpa only [h.root, hweight] using hleaves.one hdigit
    · rw [← Exact.root_div_two_add, ← hhalf, ← hweight]
    · simp only [hweight]
  · refine ⟨_, 2 * r, hstep, hleaves.zero (not_le.mp hdigit), ?_, ?_⟩
    · rw [← Exact.root_div_two, ← hhalf]
    · simp only [hweight]

theorem Found.decides (h : s.Found value pairs r) (hvalue : value < 2 ^ 128) (hpairs : pairs ≤ 64) :
    ∃ t, Decides pairs s t ∧ t.root = Nat.sqrt value := by
  induction pairs generalizing s r with
  | zero =>
    refine ⟨s, .done ?_, ?_⟩
    · rw [h.weight, highest_zero]
      rfl
    · rw [h.root, pow_zero, mul_one, h.leaves.eq_sqrt]
  | succ pairs ih =>
    obtain ⟨t, r', hstep, hfound⟩ := h.step hvalue hpairs
    obtain ⟨u, hdecides, hroot⟩ := ih hfound (Nat.le_of_lt hpairs)
    refine ⟨u, .pass ?_ hstep hdecides, hroot⟩
    rw [h.weight, highest_succ, bne_iff_ne]
    exact (Nat.pow_pos (by norm_num)).ne'

theorem exists_end (h : value < 2 ^ 128) :
    ∃ skipped decided weight last, Skips value skipped (1 <<< 126) weight ∧
      Decides decided ⟨value, 0, weight⟩ last ∧ skipped + decided = 64 ∧
      last.root = Nat.sqrt value := by
  have hvalue : value < 4 ^ 64 := h.trans_eq (by norm_num)
  obtain ⟨skipped, left, hskips, hsum, hlt⟩ := exists_skips hvalue
  rw [show 4 ^ 64 >>> 2 = 1 <<< 126 from rfl] at hskips
  have hfound : Found ⟨value, 0, 4 ^ left >>> 2⟩ value left 0 :=
    ⟨.start hlt, (zero_mul _).symm, rfl⟩
  obtain ⟨last, hdecides, hroot⟩ := hfound.decides h (by omega)
  exact ⟨skipped, left, _, last, hskips, hdecides, hsum, hroot⟩

end RootSearch

namespace Exact.Bounded

variable {value : ℕ}

theorem integerRoot_eq {skipped decided weight : ℕ} {last : RootSearch}
    (hskips : RootSearch.Skips value skipped (1 <<< 126) weight)
    (hdecides : RootSearch.Decides decided ⟨value, 0, weight⟩ last) :
    integerRoot value = .ok last.root := by
  rw [integerRoot, RootSearch.firstWeight_eq hskips, RootSearch.run_eq hdecides]

theorem integerRoot_eq_ok (h : value < 2 ^ 128) :
    integerRoot value = .ok (Exact.integerRoot value) := by
  obtain ⟨_, _, _, last, hskips, hdecides, -, hroot⟩ := RootSearch.exists_end h
  rw [integerRoot_eq hskips hdecides, hroot, integerRoot_eq_sqrt h]

theorem alignedTo_eq_ok {a x : Exact} {bit : ℕ} (h : alignedTo a bit = .ok x) :
    x = a.alignedTo bit := by
  unfold alignedTo at h
  split_ifs at h
  · cases hsub : Exponent.sub a.exponent (bit - topBit a.significand) <;> rw [hsub] at h <;> cases h
    rfl
  · cases h
    rfl

theorem squareRoot_eq_ok {a x : Exact} (hlt : a.significand < 2 ^ 125)
    (h : alignedTo a 124 = .ok x) : squareRoot a = .ok a.squareRoot := by
  unfold squareRoot Exact.squareRoot
  split_ifs with hzero
  · rfl
  · have ha : a.significand ≠ 0 := by simpa [isZero] using hzero
    have hspec := alignedTo_spec a 124 ha hlt
    rw [h, alignedTo_eq_ok h]
    generalize a.alignedTo 124 = y at hspec ⊢
    have hy := hspec.lt
    simp only [bind, Except.bind]
    split_ifs with heven
    · rw [integerRoot_eq_ok (by omega)]
      rfl
    · rw [integerRoot_eq_ok (by simp only [Nat.shiftLeft_eq]; omega)]
      rfl

theorem integerRoot_ends (h : value < 2 ^ 128) :
    ∃ (skipped decided weight : ℕ) (last : RootSearch),
      RootSearch.Skips value skipped (1 <<< 126) weight ∧
      RootSearch.Decides decided ⟨value, 0, weight⟩ last ∧ skipped + decided = 64 ∧
      integerRoot value = .ok last.root ∧
      last.root * last.root ≤ value ∧ value < (last.root + 1) * (last.root + 1) := by
  obtain ⟨skipped, decided, weight, last, hskips, hdecides, hsum, hroot⟩ := RootSearch.exists_end h
  refine ⟨skipped, decided, weight, last, hskips, hdecides, hsum, integerRoot_eq hskips hdecides, ?_⟩
  rw [hroot]
  exact ⟨Nat.sqrt_le value, Nat.lt_succ_sqrt value⟩

theorem integerRoot_largest : 2 ^ 128 - 1 < 2 ^ 128 ∧
    ∃ (skipped decided weight : ℕ) (last : RootSearch),
      RootSearch.Skips (2 ^ 128 - 1) skipped (1 <<< 126) weight ∧
      RootSearch.Decides decided ⟨2 ^ 128 - 1, 0, weight⟩ last ∧ skipped + decided = 64 ∧
      integerRoot (2 ^ 128 - 1) = .ok last.root ∧ last.root = 2 ^ 64 - 1 := by
  have hlt : 2 ^ 128 - 1 < 2 ^ 128 := by norm_num
  obtain ⟨skipped, decided, weight, last, hskips, hdecides, hsum, hrun, hle, hgt⟩ :=
    integerRoot_ends hlt
  refine ⟨hlt, skipped, decided, weight, last, hskips, hdecides, hsum, hrun, ?_⟩
  have hroot : last.root = Nat.sqrt (2 ^ 128 - 1) := Nat.eq_sqrt.mpr ⟨hle, hgt⟩
  rw [hroot]
  exact (Nat.eq_sqrt.mpr ⟨by norm_num, by norm_num⟩).symm

end Exact.Bounded

end EV6
