import EV6.Branch.Tournament
import Mathlib.Algebra.Ring.Periodic
import Mathlib.Data.Nat.Bitwise
import Mathlib.Data.Nat.Count
/-!
One branch whose outcomes repeat. Once the histories have filled up, each of them is followed by one
outcome only, so every counter the branch visits is pushed one way until it predicts that outcome.
-/

namespace EV6

namespace Counter

variable {bits : Nat} {c : Counter bits} {taken : Bool} {k : Nat}

theorem top_eq (h : 0 < bits) : top bits + 1 = 2 * threshold bits := by
  obtain ⟨n, rfl⟩ := Nat.exists_eq_succ_of_ne_zero h.ne'
  have : 0 < 2 ^ n := Nat.two_pow_pos n
  simp only [top, threshold, Nat.one_shiftLeft, Nat.succ_eq_add_one, Nat.add_sub_cancel, pow_succ]
  omega

/-- The counter is `k` steps or more from the end of its range that is opposite to `taken`. -/
def Leans (c : Counter bits) (taken : Bool) (k : Nat) : Prop :=
  if taken then min k (top bits) ≤ c.value else c.value ≤ top bits - k

theorem leans_zero (h : c.value ≤ top bits) (taken : Bool) : c.Leans taken 0 := by
  cases taken <;> simp [Leans, h]

theorem Leans.update (h : c.Leans taken k) : (c.update taken).Leans taken (k + 1) := by
  cases taken with
  | false =>
    simp only [Leans, Bool.false_eq_true, if_false, Counter.update, decrement] at h ⊢
    omega
  | true =>
    simp only [Leans, if_true, Counter.update, increment] at h ⊢
    split <;> grind

theorem Leans.taken_eq (h : c.Leans taken k) (hk : threshold bits ≤ k) (pos : 0 < bits) :
    c.taken = taken := by
  have half := top_eq pos
  cases taken with
  | false =>
    simp only [Leans, Bool.false_eq_true, if_false] at h
    simpa [Counter.taken] using (by omega : c.value < threshold bits)
  | true =>
    simp only [Leans, if_true] at h
    simpa [Counter.taken] using (by omega : threshold bits ≤ c.value)

/-- The counter of `entry` after `n` outcomes, of which outcome `m` went to the entry `path m`. -/
def learned (path : Nat → Nat) (outcome : Nat → Bool) (entry : Nat) : Nat → Counter bits
  | 0 => weaklyNotTaken
  | n + 1 =>
    if path n = entry then (learned path outcome entry n).update (outcome n)
    else learned path outcome entry n

variable {path : Nat → Nat} {outcome : Nat → Bool} {entry first n : Nat}

theorem learned_le_top : (learned path outcome entry n : Counter bits).value ≤ top bits := by
  induction n with
  | zero =>
    have : 1 <<< (bits - 1) ≤ 1 <<< bits := by
      simpa only [Nat.one_shiftLeft] using Nat.pow_le_pow_right Nat.two_pos (Nat.sub_le bits 1)
    simp only [learned, weaklyNotTaken, threshold, top]
    omega
  | succ n ih =>
    rw [learned]
    split
    · exact update_le_top ih _
    · exact ih

theorem learned_leans (same : ∀ m, first ≤ m → path m = entry → outcome m = taken) :
    (learned path outcome entry n : Counter bits).Leans taken
      (Nat.count (fun m => first ≤ m ∧ path m = entry) n) := by
  induction n with
  | zero => exact leans_zero learned_le_top taken
  | succ n ih =>
    rw [learned, Nat.count_succ]
    by_cases visited : first ≤ n ∧ path n = entry
    · rw [if_pos visited, if_pos visited.2, same n visited.1 visited.2]
      exact ih.update
    · rw [if_neg visited, Nat.add_zero]
      by_cases early : path n = entry
      · -- before `first` nothing is counted yet
        have uncounted : Nat.count (fun m => first ≤ m ∧ path m = entry) n = 0 := by
          rw [Nat.count_iff_forall_not]
          exact fun m hm h => visited ⟨by omega, early⟩
        rw [uncounted]
        exact leans_zero (by rw [if_pos early]; exact update_le_top learned_le_top _) taken
      · rwa [if_neg early]

end Counter

namespace Tournament

def window (bits : Nat) (outcome : Nat → Bool) : Nat → Nat
  | 0 => 0
  | n + 1 => shiftIn bits (window bits outcome n) (outcome n)

section Window

variable {bits width p n : Nat} {outcome : Nat → Bool}

theorem testBit_window (i : Nat) :
    (window bits outcome n).testBit i = (decide (i < bits ∧ i < n) && outcome (n - 1 - i)) := by
  induction n generalizing i with
  | zero => simp [window]
  | succ n ih =>
    rw [window, shiftIn, Nat.one_shiftLeft, Nat.testBit_mod_two_pow, ← Nat.bit_val]
    cases i with
    | zero => simp
    | succ i =>
      rw [Nat.testBit_bit_succ, ih, show n + 1 - 1 - (i + 1) = n - 1 - i by omega]
      by_cases h : i + 1 < bits
      · simp [h, Nat.lt_of_succ_lt h]
      · simp [h]

theorem window_periodic (periodic : Function.Periodic outcome p) (full : bits ≤ n) :
    window bits outcome (n + p) = window bits outcome n := by
  refine Nat.eq_of_testBit_eq fun i => ?_
  rw [testBit_window, testBit_window]
  by_cases h : i < bits
  · rw [show n + p - 1 - i = n - 1 - i + p by omega, periodic]
    simp [h, show i < n by omega, show i < n + p by omega]
  · simp [h]

theorem outcome_eq_testBit (periodic : Function.Periodic outcome p) (pos : 0 < p) (fits : p ≤ bits)
    (seen : p ≤ n) : outcome n = (window bits outcome n).testBit (p - 1) := by
  rw [testBit_window, ← periodic (n - 1 - (p - 1)), show n - 1 - (p - 1) + p = n by omega]
  simp [show p - 1 < bits ∧ p - 1 < n by omega]

theorem count_window (periodic : Function.Periodic outcome p) (pos : 0 < p) (full : bits ≤ n)
    (visits : Nat) :
    visits ≤ Nat.count
      (fun m => n ≤ m ∧ window bits outcome m = window bits outcome (n + visits * p))
      (n + visits * p) := by
  have fixed (k : Nat) : window bits outcome (n + k * p) = window bits outcome n := by
    induction k with
    | zero => simp
    | succ k ih => rw [Nat.succ_mul, ← Nat.add_assoc, window_periodic periodic (by omega), ih]
  rw [fixed]
  induction visits with
  | zero => exact Nat.zero_le _
  | succ k ih =>
    calc k + 1
        ≤ Nat.count (fun m => n ≤ m ∧ window bits outcome m = window bits outcome n)
            (n + k * p + 1) := by
          rw [Nat.count_succ, if_pos ⟨Nat.le_add_right n _, fixed k⟩]
          exact Nat.succ_le_succ ih
      _ ≤ _ := Nat.count_monotone _ (by rw [Nat.succ_mul]; omega)

theorem learned_taken (periodic : Function.Periodic outcome p) (pos : 0 < p) (fits : p ≤ bits)
    (wide : 0 < width) (late : bits + Counter.threshold width * p ≤ n) :
    (Counter.learned (window bits outcome) outcome (window bits outcome n) n :
      Counter width).taken = outcome n := by
  obtain ⟨first, full, rfl⟩ : ∃ first, bits ≤ first ∧ first + Counter.threshold width * p = n :=
    ⟨n - Counter.threshold width * p, by omega, by omega⟩
  refine (Counter.learned_leans fun m hm same => ?_).taken_eq
    (count_window periodic pos full _) wide
  rw [outcome_eq_testBit periodic pos fits (by omega : p ≤ m), same,
    ← outcome_eq_testBit periodic pos fits (by omega)]

end Window

def observe (t : Tournament) (pc : Word) (taken : Bool) : Tournament :=
  t.train pc taken (t.predict pc).localVote (t.predict pc).globalVote

def after (t : Tournament) (pc : Word) (outcome : Nat → Bool) : Nat → Tournament
  | 0 => t
  | n + 1 => (after t pc outcome n).observe pc (outcome n)

structure Saw (l g : Nat) (mode : PredictionMode) (pc : Word)
    (outcome : Nat → Bool) (n : Nat) (t : Tournament) : Prop where
  mode : t.mode = mode
  localBits : t.localBits = l
  globalBits : t.globalBits = g
  globalPath : t.globalPath = window g outcome n
  localHistory : t.localHistory pc = window l outcome n
  localCounters : ∀ entry,
    t.localCounters.get entry = Counter.learned (window l outcome) outcome entry n
  globalCounters : ∀ entry,
    t.globalCounters.get entry = Counter.learned (window g outcome) outcome entry n

section Run

variable {l g p n : Nat} {mode : PredictionMode} {pc : Word}
  {outcome : Nat → Bool} {t : Tournament}

theorem saw_reset (hl : l ≤ 16) (hg : g ≤ 16) :
    Saw l g mode pc outcome 0 (reset l g mode) := by
  constructor <;> simp [reset, window, Counter.learned, Tournament.localHistory, hl, hg]

theorem Saw.observe (h : Saw l g mode pc outcome n t) :
    Saw l g mode pc outcome (n + 1) (t.observe pc (outcome n)) := by
  have history : t.histories.get (t.historyIndex pc) = window l outcome n := h.localHistory
  constructor
  case mode => exact h.mode
  case localBits => exact h.localBits
  case globalBits => exact h.globalBits
  case globalPath => simp only [Tournament.observe, train, window, h.globalPath, h.globalBits]
  case localHistory =>
    change (t.histories.set _ _).get (t.historyIndex pc) = _
    rw [Table.get_set_self, history, h.localBits, window]
  case localCounters =>
    intro entry
    change (t.localCounters.modify _ _).get entry = _
    rw [Table.get_modify, history, h.localCounters, Counter.learned]
  case globalCounters =>
    intro entry
    change (t.globalCounters.modify _ _).get entry = _
    rw [Table.get_modify, h.globalPath, h.globalCounters, Counter.learned]

theorem saw_after (h : Saw l g mode pc outcome 0 t) :
    Saw l g mode pc outcome n (t.after pc outcome n) := by
  induction n with
  | zero => exact h
  | succ n ih => exact ih.observe

theorem Saw.predict (h : Saw l g mode pc outcome n t) :
    (t.predict pc).localVote = (Counter.learned (window l outcome) outcome
        (window l outcome n) n : Counter 3).taken ∧
      (t.predict pc).globalVote = (Counter.learned (window g outcome) outcome
        (window g outcome n) n : Counter 2).taken := by
  refine ⟨?_, ?_⟩
  · simp only [Tournament.predict, localCounter, h.localHistory, h.localCounters]
  · simp only [Tournament.predict, globalCounter, h.globalPath, h.globalCounters]

theorem taken_of_votes {taken : Bool} (enabled : t.mode ≠ .disabled)
    (hl : (t.predict pc).localVote = taken) (hg : (t.predict pc).globalVote = taken) :
    (t.predict pc).taken = taken := by
  change vote t.mode (t.predict pc).localVote (t.predict pc).globalVote (t.predict pc).choice = taken
  rw [hl, hg]
  cases mode : t.mode with
  | choice => simp [vote]
  | localOnly => rfl
  | disabled => exact absurd mode enabled

theorem build_eq_reset (hl : l ≤ 16) (hg : g ≤ 16) :
    build l g mode = .ok (reset l g mode) := by
  have pow {bits : Nat} (h : bits ≤ 16) : Machine.twoPow bits = .ok (1 <<< bits) :=
    Machine.twoPow_eq_ok_iff.2 ⟨by omega, rfl⟩
  have room {bits bytes : Nat} (h : bits ≤ 16) (hb : bytes ≤ 2) :
      Machine.reserve (1 <<< bits) bytes = .ok () := by
    refine Machine.reserve_eq_ok_iff.2 ?_
    calc (1 <<< bits) * bytes ≤ (1 <<< 16) * 2 := by
          simp only [Nat.one_shiftLeft]
          exact Nat.mul_le_mul (Nat.pow_le_pow_right Nat.two_pos h) hb
      _ < _ := by decide
  simp only [build, pow hl, pow hg, bind, Except.bind, historyBytes, room hl le_rfl,
    room hg one_le_two]

theorem learns_periodic (hl : 1 ≤ l ∧ l ≤ 16)
    (hg : 1 ≤ g ∧ g ≤ 16) (mode : PredictionMode) (pc : Word)
    (periodic : Function.Periodic outcome p) (pos : 0 < p)
    (fits : p ≤ min l g) :
    ∃ start, build l g mode = .ok start ∧
      ∀ n, max l g + 4 * p ≤ n →
        ((start.after pc outcome n).predict pc).localVote = outcome n ∧
        ((start.after pc outcome n).predict pc).globalVote = outcome n ∧
        (mode ≠ .disabled → ((start.after pc outcome n).predict pc).taken = outcome n) := by
  refine ⟨_, build_eq_reset hl.2 hg.2, fun n late => ?_⟩
  have saw : Saw l g mode pc outcome n _ := saw_after (saw_reset hl.2 hg.2)
  have thresholds : Counter.threshold 3 = 4 ∧ Counter.threshold 2 = 2 := by decide
  have localVote := saw.predict.1.trans
    (learned_taken periodic pos (by omega) (by decide) (by rw [thresholds.1]; omega))
  have globalVote := saw.predict.2.trans
    (learned_taken periodic pos (by omega) (by decide) (by rw [thresholds.2]; omega))
  exact ⟨localVote, globalVote,
    fun enabled => taken_of_votes (saw.mode.symm ▸ enabled) localVote globalVote⟩

end Run

theorem loop_exit_learned :
    ∃ start, build 10 12 .choice = .ok start ∧
      ∀ n, 12 + 4 * 3 ≤ n →
        ((start.after 0x1000 (fun k => decide (k % 3 ≠ 2)) n).predict 0x1000).taken =
          decide (n % 3 ≠ 2) := by
  have periodic : Function.Periodic (fun k : Nat => decide (k % 3 ≠ 2)) 3 := fun k => by simp
  obtain ⟨start, built, learns⟩ := learns_periodic (l := 10) (g := 12) (by decide) (by decide)
    .choice 0x1000 periodic (by decide) (by decide)
  exact ⟨start, built, fun n late => (learns n late).2.2 (by decide)⟩

end Tournament

end EV6
