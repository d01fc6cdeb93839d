import EV6.Proofs.Word.Product

namespace EV6

namespace Length

variable {l : Length} {x : Int}

def bits : Length → Nat
  | long => 32
  | quad => 64

def signed : Length → Word → Int
  | long, a => (a.setWidth 32).toInt
  | quad, a => a.toInt

def Fits (l : Length) (x : Int) : Prop := -2 ^ (l.bits - 1) ≤ x ∧ x < 2 ^ (l.bits - 1)

instance (l : Length) (x : Int) : Decidable (l.Fits x) := inferInstanceAs (Decidable (_ ∧ _))

theorem bmod_eq_self_iff : x.bmod (2 ^ l.bits) = x ↔ l.Fits x := by
  rw [Int.bmod_eq_iff (by cases l <;> decide)]
  cases l <;> simp only [bits, Fits] <;> omega

end Length

namespace Integer

theorem toInt_ofLength (l : Length) (a : Word) : (ofLength l a).toInt = l.signed a := by
  cases l with
  | long => exact BitVec.toInt_signExtend_of_le (by decide)
  | quad => rfl

inductive CheckedOperation where
  | add
  | sub
  | mul
  deriving DecidableEq, Repr

namespace CheckedOperation

def plain : CheckedOperation → Length → ArithmeticOp
  | add, l => .add l .one
  | sub, l => .sub l .one
  | mul, l => .mul l

def checked : CheckedOperation → Length → ArithmeticOp
  | add, l => .addChecked l
  | sub, l => .subChecked l
  | mul, l => .mulChecked l

def onIntegers : CheckedOperation → Int → Int → Int
  | add, x, y => x + y
  | sub, x, y => x - y
  | mul, x, y => x * y

def onWords : CheckedOperation → Word → Word → Word
  | add, a, b => a + b
  | sub, a, b => a - b
  | mul, a, b => a * b

variable (op : CheckedOperation) (l : Length) (a b : Word)

theorem arithmetic_plain : arithmetic (op.plain l) a b = .ok (ofLength l (op.onWords a b)) := by
  cases op with
  | add => rw [plain, arithmetic, Scale.shift, BitVec.shiftLeft_zero, onWords]
  | sub => rw [plain, arithmetic, Scale.shift, BitVec.shiftLeft_zero, onWords]
  | mul => rfl

theorem toInt_setWidth_onWords :
    ((op.onWords a b).setWidth 32).toInt =
      (op.onIntegers (a.setWidth 32).toInt (b.setWidth 32).toInt).bmod (2 ^ 32) := by
  have hle : 32 ≤ 64 := by decide
  cases op with
  | add => rw [onWords, onIntegers, BitVec.setWidth_add _ _ hle, BitVec.toInt_add]
  | sub =>
    rw [onWords, onIntegers, BitVec.sub_eq_add_neg, BitVec.setWidth_add _ _ hle,
      BitVec.setWidth_neg_of_le hle, ← BitVec.sub_eq_add_neg, BitVec.toInt_sub]
  | mul => rw [onWords, onIntegers, BitVec.setWidth_mul _ _ hle, BitVec.toInt_mul]

theorem signed_onWords :
    l.signed (op.onWords a b) = (op.onIntegers (l.signed a) (l.signed b)).bmod (2 ^ l.bits) := by
  cases l with
  | long => exact op.toInt_setWidth_onWords a b
  | quad =>
    cases op with
    | add => exact BitVec.toInt_add a b
    | sub => exact BitVec.toInt_sub
    | mul => exact BitVec.toInt_mul a b

end CheckedOperation

theorem toInt_narrowed (x : Int) :
    (Word.signExtend (BitVec.ofInt 64 x) .long).toInt = x.bmod (2 ^ 32) := by
  have hlong : (Word.signExtend (BitVec.ofInt 64 x) .long).toInt =
    ((BitVec.ofInt 64 x).setWidth 32).toInt := BitVec.toInt_signExtend_of_le (by decide)
  rw [hlong, BitVec.toInt_setWidth, BitVec.toNat_ofInt,
    Int.toNat_of_nonneg (Int.emod_nonneg _ (by decide)), Int.bmod_def, Int.bmod_def,
    Int.emod_emod_of_dvd _ (by decide)]

theorem checkedLong_eq {x : Int} {v : Word} (hv : v.toInt = x.bmod (2 ^ 32)) :
    checkedLong x = if Length.long.Fits x then .ok v else .error overflowTrap := by
  have hnarrow : Word.signExtend (BitVec.ofInt 64 x) .long = v := by
    rw [← BitVec.toInt_inj, hv, toInt_narrowed]
  rw [checkedLong, hnarrow, hv]
  simp only [← Length.bmod_eq_self_iff, Length.bits]

theorem addOverflows_eq_false_iff (a b : Word) :
    Word.addOverflows a b (a + b) = false ↔ Length.quad.Fits (a.toInt + b.toInt) := by
  have hsigns : Word.addOverflows a b (a + b) = a.saddOverflow b := by
    rw [BitVec.saddOverflow_eq, Word.addOverflows]
    cases a.msb <;> cases b.msb <;> cases (a + b).msb <;> rfl
  rw [hsigns, BitVec.saddOverflow, Bool.or_eq_false_iff, decide_eq_false_iff_not,
    decide_eq_false_iff_not, Length.Fits, Length.bits]
  omega

theorem subOverflows_eq_false_iff (a b : Word) :
    Word.subOverflows a b (a - b) = false ↔ Length.quad.Fits (a.toInt - b.toInt) := by
  have hsigns : Word.subOverflows a b (a - b) = a.ssubOverflow b := by
    rw [BitVec.ssubOverflow_eq, Word.subOverflows]
    cases a.msb <;> cases b.msb <;> cases (a - b).msb <;> rfl
  rw [hsigns, BitVec.ssubOverflow, Bool.or_eq_false_iff, decide_eq_false_iff_not,
    decide_eq_false_iff_not, Length.Fits, Length.bits]
  omega

theorem trap_of_overflow {overflow : Bool} {fits : Prop} [Decidable fits] {v : Word}
    (h : overflow = false ↔ fits) :
    (if overflow then .error overflowTrap else .ok v : Except Fault Word) =
      if fits then .ok v else .error overflowTrap := by
  cases overflow with
  | false => rw [if_neg Bool.false_ne_true, if_pos (h.mp rfl)]
  | true => rw [if_pos rfl, if_neg fun hfits => Bool.noConfusion (h.mpr hfits)]

theorem mulChecked_quad (a b : Word) :
    mulChecked .quad a b =
      if Length.quad.Fits (a.toInt * b.toInt) then .ok (a * b) else .error overflowTrap := by
  rw [mulChecked, trap_of_overflow (Word.overflow_eq_false_iff a b), Word.low_signedProduct]
  rfl

theorem CheckedOperation.arithmetic_checked (op : CheckedOperation) (l : Length) (a b : Word) :
    arithmetic (op.checked l) a b =
      if l.Fits (op.onIntegers (l.signed a) (l.signed b)) then .ok (ofLength l (op.onWords a b))
      else .error overflowTrap := by
  cases l with
  | long =>
    have hchecked : arithmetic (op.checked .long) a b =
        checkedLong (op.onIntegers (signedLong a) (signedLong b)) := by
      cases op <;> rfl
    have hvalue : (ofLength .long (op.onWords a b)).toInt =
        (op.onIntegers (signedLong a) (signedLong b)).bmod (2 ^ 32) :=
      (toInt_ofLength .long _).trans (op.toInt_setWidth_onWords a b)
    rw [hchecked, checkedLong_eq hvalue]
    rfl
  | quad =>
    cases op with
    | add => exact trap_of_overflow (addOverflows_eq_false_iff a b)
    | sub => exact trap_of_overflow (subOverflows_eq_false_iff a b)
    | mul => exact mulChecked_quad a b

theorem signedLong_mem (a : Word) : -2 ^ 31 ≤ signedLong a ∧ signedLong a < 2 ^ 31 :=
  ⟨BitVec.le_toInt _, BitVec.toInt_lt⟩

theorem fit_eq_ok {op : MachineOperation} {x : Int} (hge : -2 ^ 63 ≤ x) (hlt : x < 2 ^ 63) :
    Quadword.fit op x = .ok x := Quadword.fit_eq_ok_iff.mpr ⟨rfl, hge, hlt⟩

theorem bounded_arithmetic (op : ArithmeticOp) (a b : Word) :
    Bounded.arithmetic op a b = .ok (arithmetic op a b) := by
  obtain ⟨ha, ha'⟩ := signedLong_mem a
  obtain ⟨hb, hb'⟩ := signedLong_mem b
  cases op with
  | addChecked l =>
    cases l with
    | long =>
      rw [Bounded.arithmetic, Quadword.add, fit_eq_ok (by omega) (by omega)]
      rfl
    | quad => rfl
  | subChecked l =>
    cases l with
    | long =>
      rw [Bounded.arithmetic, Quadword.sub, fit_eq_ok (by omega) (by omega)]
      rfl
    | quad => rfl
  | mulChecked l =>
    cases l with
    | long =>
      have hle : signedLong a * signedLong b ≤ 2 ^ 62 := BitVec.toInt_mul_toInt_le
      have hge : -2 ^ 62 ≤ signedLong a * signedLong b := BitVec.le_toInt_mul_toInt
      rw [Bounded.arithmetic, Quadword.mul, fit_eq_ok (by omega) (by omega)]
      rfl
    | quad =>
      rw [Bounded.arithmetic, Word.bounded_wideProduct]
      rfl
  | mulHigh =>
    rw [Bounded.arithmetic, Word.bounded_wideProduct]
    rfl
  | _ => rfl

theorem bounded_execute (m : Mnemonic) (a b : Word) (bigEndian : Bool) :
    Bounded.execute m a b bigEndian = .ok (execute m a b bigEndian) := by
  unfold Bounded.execute
  split
  · rw [bounded_arithmetic]
    rfl
  · rfl

theorem checked_forms_agree (op : CheckedOperation) (l : Length) (a b : Word) (bigEndian : Bool) :
    let result := op.onIntegers (l.signed a) (l.signed b)
    let plain := Mnemonic.integer (.arithmetic (op.plain l))
    let checked := Mnemonic.integer (.arithmetic (op.checked l))
    ∃ v, execute plain a b bigEndian = .ok (some v) ∧ (l.Fits result → v.toInt = result) ∧
      execute checked a b bigEndian =
        (if l.Fits result then .ok (some v)
        else .error (.arithmeticTraps .ofIntegerOverflow)) ∧
      Bounded.execute plain a b bigEndian = .ok (execute plain a b bigEndian) ∧
      Bounded.execute checked a b bigEndian = .ok (execute checked a b bigEndian) := by
  intro result plain checked
  refine ⟨ofLength l (op.onWords a b), ?_, fun hfits => ?_, ?_, bounded_execute ..,
    bounded_execute ..⟩
  · rw [execute, op.arithmetic_plain]
    rfl
  · rw [toInt_ofLength, op.signed_onWords]
    exact Length.bmod_eq_self_iff.mpr hfits
  · rw [execute, op.arithmetic_checked]
    split <;> rfl

example : arithmetic (.mulChecked .quad) 0x8000000000000000 0xFFFFFFFFFFFFFFFF =
    .error overflowTrap := by decide

end Integer

end EV6
