import EV6.Float.Control

namespace EV6

inductive FloatException where
  | invalid
  | divideByZero
  | overflow
  | underflow
  | inexact
  | integerOverflow
  deriving DecidableEq, Repr

namespace FloatException

def statusBit : FloatException → Nat
  | invalid => 52
  | divideByZero => 53
  | overflow => 54
  | underflow => 55
  | inexact => 56
  | integerOverflow => 57

def disableBit? : FloatException → Option Nat
  | invalid => some 49
  | divideByZero => some 50
  | overflow => some 51
  | underflow => some 61
  | inexact => some 62
  | integerOverflow => none

def enabledBy (q : TrapQualifier) : FloatException → Bool
  | invalid | divideByZero | overflow => true
  | underflow | integerOverflow => q.underflow
  | inexact => q.inexact

theorem statusBit_spec (i : Nat) : (∃ x : FloatException, x.statusBit = i) ↔ 52 ≤ i ∧ i < 58 := by
  constructor
  · rintro ⟨x, rfl⟩
    cases x <;> decide
  · rintro ⟨hle, hlt⟩
    obtain rfl | rfl | rfl | rfl | rfl | rfl :
        i = 52 ∨ i = 53 ∨ i = 54 ∨ i = 55 ∨ i = 56 ∨ i = 57 := by omega
    · exact ⟨invalid, rfl⟩
    · exact ⟨divideByZero, rfl⟩
    · exact ⟨overflow, rfl⟩
    · exact ⟨underflow, rfl⟩
    · exact ⟨inexact, rfl⟩
    · exact ⟨integerOverflow, rfl⟩

end FloatException

namespace FloatFlags

variable {f g : FloatFlags} {x : FloatException}

def raises (f : FloatFlags) : FloatException → Bool
  | .invalid => f.invalid
  | .divideByZero => f.divideByZero
  | .overflow => f.overflow
  | .underflow => f.underflow
  | .inexact => f.inexact
  | .integerOverflow => f.integerOverflow

@[simp] theorem raises_none (x : FloatException) : none.raises x = false := by cases x <;> rfl

theorem raises_map₂ (op : Bool → Bool → Bool) (f g : FloatFlags) (x : FloatException) :
    (map₂ op f g).raises x = op (f.raises x) (g.raises x) := by cases x <;> rfl

theorem raises_trappable (q : TrapQualifier) (x : FloatException) :
    (trappable q .ieee).raises x = x.enabledBy q := by
  cases x <;> simp [trappable, raises, FloatException.enabledBy]

theorem raises_ofIntegerOverflow (x : FloatException) :
    ofIntegerOverflow.raises x = (x == .integerOverflow) := by cases x <;> rfl

theorem isEmpty_iff : f.isEmpty = true ↔ ∀ x, f.raises x = false := by
  rw [isEmpty, beq_iff_eq]
  constructor
  · rintro rfl
    exact raises_none
  · intro h
    obtain ⟨a, b, c, d, e, g⟩ := f
    exact FloatFlags.mk.injEq .. ▸ ⟨h .invalid, h .divideByZero, h .overflow, h .underflow,
      h .inexact, h .integerOverflow⟩

theorem isEmpty_eq_false_iff : f.isEmpty = false ↔ ∃ x, f.raises x = true := by
  rw [← Bool.not_eq_true, isEmpty_iff]
  simp

theorem isSome_trap? (software : Bool) : (f.trap? software).isSome ↔ ∃ x, f.raises x = true := by
  rw [← isEmpty_eq_false_iff, trap?]
  cases f.isEmpty <;> simp

end FloatFlags

namespace FloatControl

variable {c : FloatControl} {f : FloatFlags} {x : FloatException}

def Accumulates (c d : FloatControl) : Prop :=
  ∃ set : Word, set &&& ~~~(statusMask ||| summaryBit) = 0 ∧ d.bits = c.bits ||| set

theorem Accumulates.refl (c : FloatControl) : c.Accumulates c := ⟨0, by decide, by simp⟩

theorem accumulates_record (c : FloatControl) (f : FloatFlags) : c.Accumulates (c.record f) := by
  unfold record
  split
  · exact .refl c
  · refine ⟨status f ||| summaryBit, ?_, BitVec.or_assoc _ _ _⟩
    obtain ⟨a, b, c, d, e, g⟩ := f
    revert a b c d e g
    decide

theorem Accumulates.trans {c d e : FloatControl} (h : c.Accumulates d) (h' : d.Accumulates e) :
    c.Accumulates e := by
  obtain ⟨set, hset, hd⟩ := h
  obtain ⟨set', hset', he⟩ := h'
  refine ⟨set ||| set', ?_, by rw [he, hd, BitVec.or_assoc]⟩
  rw [BitVec.and_or_distrib_right, hset, hset']
  decide

def records (c : FloatControl) (x : FloatException) : Bool := c.bits.getLsbD x.statusBit

def disables (c : FloatControl) (x : FloatException) : Bool := x.disableBit?.any c.bits.getLsbD

/-- The bits that say how to operate: the trap-disable bits 51:49 and 62:61, the dynamic rounding
mode in bits 59:58, and the denormal controls in bits 60 and 48. -/
def settingsMask : Word := 0x7C0F000000000000

def settings (c : FloatControl) : Word := c.bits &&& settingsMask

structure WellFormed (c : FloatControl) : Prop where
  unimplemented : c.bits.setWidth 48 = 0
  summary : c.bits.getLsbD 63 = true ↔ ∃ x, c.records x = true

theorem wellFormed_reset : reset.WellFormed := by
  refine ⟨by decide, ?_⟩
  constructor
  · intro h
    exact absurd h (by decide)
  · rintro ⟨x, hx⟩
    revert hx
    cases x <;> decide

theorem and_statusMask_eq_zero_iff (w : Word) :
    w &&& statusMask = 0 ↔ ∀ x : FloatException, w.getLsbD x.statusBit = false := by
  have hmask : ∀ i : Fin 64, statusMask.getLsbD i = decide (52 ≤ i.val ∧ i.val < 58) := by decide
  constructor
  · intro h x
    have hbit : (w &&& statusMask).getLsbD x.statusBit = false := by rw [h]; simp
    have hstatus : statusMask.getLsbD x.statusBit = true := by cases x <;> decide
    simpa [hstatus] using hbit
  · intro h
    refine BitVec.eq_of_getLsbD_eq fun i hi => ?_
    rw [BitVec.getLsbD_and, hmask ⟨i, hi⟩]
    by_cases hrange : 52 ≤ i ∧ i < 58
    · obtain ⟨x, rfl⟩ := (FloatException.statusBit_spec i).2 hrange
      simp [h x]
    · simp [hrange]

theorem wellFormed_write (w : Word) : (write w).WellFormed := by
  have hclear : ∀ x : FloatException, summaryBit.getLsbD x.statusBit = false := by
    intro x
    cases x <;> decide
  have hlow : implemented.setWidth 48 = 0 := by decide
  unfold write
  dsimp only
  split
  · rename_i hnone
    rw [and_statusMask_eq_zero_iff] at hnone
    refine ⟨by simp [BitVec.setWidth_and, hlow], ?_⟩
    constructor
    · intro h
      exact absurd h (by simp [show summaryBit.getLsbD 63 = true by decide])
    · rintro ⟨x, hx⟩
      simp [records, hnone x] at hx
  · rename_i hsome
    rw [and_statusMask_eq_zero_iff] at hsome
    refine ⟨?_, ?_⟩
    · simp [BitVec.setWidth_and, BitVec.setWidth_or, hlow,
        show summaryBit.setWidth 48 = 0 by decide]
    · refine iff_of_true (by simp [show summaryBit.getLsbD 63 = true by decide]) ?_
      obtain ⟨x, hx⟩ := Classical.not_forall.1 hsome
      exact ⟨x, by simpa [records, hclear x] using hx⟩

theorem getLsbD_status (f : FloatFlags) (x : FloatException) :
    (status f).getLsbD x.statusBit = f.raises x := by
  obtain ⟨a, b, c, d, e, g⟩ := f
  cases x <;> revert a b c d e g <;> decide

theorem records_record (c : FloatControl) (f : FloatFlags) (x : FloatException) :
    (c.record f).records x = (c.records x || f.raises x) := by
  unfold record
  split
  · rename_i hempty
    obtain rfl : f = .none := eq_of_beq hempty
    simp
  · have hclear : summaryBit.getLsbD x.statusBit = false := by cases x <;> decide
    simp only [records, BitVec.getLsbD_or, getLsbD_status, hclear, Bool.or_false]

theorem Accumulates.and_eq {d : FloatControl} (h : c.Accumulates d) {mask : Word}
    (hmask : mask &&& (statusMask ||| summaryBit) = 0) : d.bits &&& mask = c.bits &&& mask := by
  obtain ⟨set, hset, hbits⟩ := h
  refine BitVec.eq_of_getLsbD_eq fun i hi => ?_
  have hset := congrArg (·.getLsbD i) hset
  have hmask := congrArg (·.getLsbD i) hmask
  simp only [BitVec.getLsbD_and, BitVec.getLsbD_not, hi, decide_true, Bool.true_and]
    at hset hmask
  rw [hbits]
  simp only [BitVec.getLsbD_and, BitVec.getLsbD_or]
  grind

theorem settings_record (c : FloatControl) (f : FloatFlags) :
    (c.record f).settings = c.settings :=
  (c.accumulates_record f).and_eq (by decide)

theorem disables_record (c : FloatControl) (f : FloatFlags) (x : FloatException) :
    (c.record f).disables x = c.disables x := by
  have hbit (i : Nat) (hi : settingsMask.getLsbD i = true) :
      (c.record f).bits.getLsbD i = c.bits.getLsbD i := by
    simpa [settings, hi] using congrArg (·.getLsbD i) (c.settings_record f)
  cases x with
  | integerOverflow => rfl
  | invalid => exact hbit 49 (by decide)
  | divideByZero => exact hbit 50 (by decide)
  | overflow => exact hbit 51 (by decide)
  | underflow => exact hbit 61 (by decide)
  | inexact => exact hbit 62 (by decide)

theorem WellFormed.record (h : c.WellFormed) (f : FloatFlags) : (c.record f).WellFormed := by
  refine ⟨?_, ?_⟩
  · have hlow : (c.record f).bits &&& 0x0000FFFFFFFFFFFF = c.bits &&& 0x0000FFFFFFFFFFFF :=
      (c.accumulates_record f).and_eq (by decide)
    have hsame := congrArg (BitVec.setWidth 48) hlow
    rw [BitVec.setWidth_and, BitVec.setWidth_and, h.unimplemented] at hsame
    have hones : (0x0000FFFFFFFFFFFF : Word).setWidth 48 = BitVec.allOnes 48 := by decide
    rwa [hones, BitVec.and_allOnes, BitVec.and_allOnes] at hsame
  · simp only [records_record]
    unfold FloatControl.record
    split
    · rename_i hempty
      obtain rfl : f = .none := eq_of_beq hempty
      simpa using h.summary
    · rename_i hsome
      obtain ⟨x, hx⟩ := FloatFlags.isEmpty_eq_false_iff.1 (by simpa using hsome)
      exact iff_of_true (by simp [show summaryBit.getLsbD 63 = true by decide]) ⟨x, by simp [hx]⟩

theorem raises_disabled (c : FloatControl) (f : FloatFlags) (x : FloatException) :
    (c.disabled f).raises x = (f.raises x && c.disables x) := by
  rw [disabled, FloatFlags.inter, FloatFlags.raises_map₂]
  cases x <;> simp [FloatFlags.raises, disables, FloatException.disableBit?]

def Traps (c : FloatControl) (raised : FloatFlags) (q : TrapQualifier) : Prop :=
  ∃ x, raised.raises x = true ∧ x.enabledBy q = true ∧ ¬(q.software = true ∧ c.disables x = true)

theorem traps_record (c : FloatControl) (f g : FloatFlags) (q : TrapQualifier) :
    (c.record f).Traps g q ↔ c.Traps g q := by
  simp only [Traps, disables_record]

theorem isSome_ieeeTrap? (c : FloatControl) (f : FloatFlags) (q : TrapQualifier) :
    (c.ieeeTrap? f q).isSome ↔ c.Traps f q := by
  have henabled (x : FloatException) :
      (f.enabledBy q .ieee).raises x = (f.raises x && x.enabledBy q) := by
    rw [FloatFlags.enabledBy, FloatFlags.inter, FloatFlags.raises_map₂,
      FloatFlags.raises_trappable]
  rw [ieeeTrap?, FloatFlags.isSome_trap?, Traps]
  cases hs : q.software with
  | false => simp [henabled]
  | true =>
    simp only [if_true, FloatFlags.without, FloatFlags.raises_map₂, raises_disabled, henabled]
    grind

end FloatControl

end EV6
