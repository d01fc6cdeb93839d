import EV6.Proofs.Core.Apart
import EV6.Proofs.Execution.Stable
import EV6.Proofs.Execution.Records
import EV6.Proofs.Float.Status
/-!
The floating control register over whole runs. An IEEE operation adds the exceptions it raises to
those that are recorded, and traps on those of them that its qualifiers enable; only a move to the
register takes anything back.
-/

namespace EV6

open Step Outcome

def Word.FitsLongword (w : Word) : Prop := -2147483648 ≤ w.toInt ∧ w.toInt < 2147483648

instance (w : Word) : Decidable w.FitsLongword := inferInstanceAs (Decidable (_ ∧ _))

theorem Word.signExtend_long_eq_iff (w : Word) : w.signExtend .long = w ↔ w.FitsLongword := by
  have hvalue : (w.signExtend .long).toInt = Int.bmod w.toInt (2 ^ 32) := by
    change ((w.setWidth 32).signExtend 64).toInt = _
    rw [BitVec.toInt_signExtend_of_le (by decide), BitVec.toInt_setWidth, BitVec.toInt_eq_toNat_bmod,
      Int.bmod_bmod_of_dvd (by decide)]
  rw [← BitVec.toInt_inj, hvalue, FitsLongword]
  have hle := Int.le_bmod (x := w.toInt) (m := 2 ^ 32) (by decide)
  have hlt := Int.bmod_lt (x := w.toInt) (m := 2 ^ 32) (by decide)
  constructor
  · intro h
    rw [h] at hle hlt
    omega
  · rintro ⟨hlow, hhigh⟩
    exact Int.bmod_eq_of_le (by omega) (by omega)

def IeeeOp.raised (op : IeeeOp) (i : Instruction) (control : FloatControl) : FloatFlags :=
  (op.compute (IeeeContext.ofFunction i.function control) i.a i.b).flags

namespace FloatOp

variable {op : FloatOp} {i : Instruction} {control : FloatControl}

def raised? (op : FloatOp) (i : Instruction) (control : FloatControl) : Option FloatFlags :=
  match op with
  | ieee op => some (op.raised i control)
  | quadToLong => some (if i.b.FitsLongword then .none else .ofIntegerOverflow)
  | _ => none

theorem record_raised {raised : FloatFlags} (h : op.raised? i control = some raised) :
    (op.execute i control).control = control.record raised := by
  cases op with
  | ieee op =>
    cases h
    rfl
  | quadToLong =>
    cases h
    simp only [execute, narrow, Word.signExtend_long_eq_iff]
    split <;> rfl
  | _ => cases h

theorem control_of_silent (hm : op ≠ writeControl) (h : op.raised? i control = none) :
    (op.execute i control).control = control := by
  cases op with
  | ieee op => cases h
  | quadToLong => cases h
  | writeControl => exact absurd rfl hm
  | conditionalMove t =>
    simp only [execute]
    split <;> rfl
  | _ => rfl

theorem execute_traps {raised : FloatFlags} (h : op.raised? i control = some raised) :
    (control.Traps raised (TrapQualifier.ofFunction i.function) ∧
        ∃ sum, (op.execute i control).result = .error (.arithmeticTraps sum)) ∨
      ¬control.Traps raised (TrapQualifier.ofFunction i.function) ∧
        ∃ value, (op.execute i control).result = .ok value := by
  cases op with
  | ieee op =>
    cases h
    -- the exceptions are recorded first, which leaves the disable bits alone
    rw [← FloatControl.traps_record control (op.raised i control),
      ← FloatControl.isSome_ieeeTrap?]
    simp only [execute, IeeeOp.execute, IeeeOp.raised]
    generalize FloatControl.ieeeTrap? _ _ _ = trap
    cases trap with
    | none => exact .inr ⟨by simp, _, rfl⟩
    | some sum => exact .inl ⟨rfl, sum, rfl⟩
  | quadToLong =>
    cases h
    simp only [execute, narrow, Word.signExtend_long_eq_iff]
    by_cases fits : i.b.FitsLongword
    · have quiet : ¬control.Traps .none (TrapQualifier.ofFunction i.function) := by
        rintro ⟨x, hx, -⟩
        simp at hx
      rw [if_pos fits, if_pos fits]
      exact .inr ⟨quiet, _, rfl⟩
    · have traps : control.Traps .ofIntegerOverflow (TrapQualifier.ofFunction i.function) ↔
          (TrapQualifier.ofFunction i.function).underflow = true := by
        simp only [FloatControl.Traps, FloatFlags.raises_ofIntegerOverflow, beq_iff_eq]
        constructor
        · rintro ⟨x, rfl, henabled, -⟩
          exact henabled
        · exact fun hv => ⟨.integerOverflow, rfl, hv, fun hs => by cases hs.2⟩
      rw [if_neg fits, if_neg fits]
      by_cases hv : (TrapQualifier.ofFunction i.function).underflow = true
      · exact .inl ⟨traps.2 hv, _, if_pos hv⟩
      · exact .inr ⟨fun h => hv (traps.1 h), _, if_neg hv⟩
  | _ => cases h

end FloatOp

namespace Execution

variable {π : Type}

theorem executeFloat_ends (op : FloatOp) (e : Execution π) :
    (executeFloat op e).Ends
      (fun _ t => t.core.control = (op.execute e.instruction e.core.control).control ∧
        ∃ value, (op.execute e.instruction e.core.control).result = .ok value)
      (fun fault t => t.core.control = (op.execute e.instruction e.core.control).control ∧
        (op.execute e.instruction e.core.control).result = .error fault ∧
        t.instruction = e.instruction) False := by
  unfold executeFloat
  rw [bind_done (get_apply e)]
  dsimp only
  rw [bind_done (modify_apply _ _)]
  cases h : (op.execute e.instruction e.core.control).result with
  | ok value => exact ⟨rfl, value, rfl⟩
  | error fault => exact ⟨rfl, rfl, rfl⟩

structure FloatAccount (c : Core π) (i : Instruction) (fault : Option Fault) (t : Execution π) :
    Prop where
  wellFormed : c.control.WellFormed → t.core.control.WellFormed
  settings : i.mnemonic ≠ .float .writeControl → t.core.control.settings = c.control.settings
  sticky : i.mnemonic ≠ .float .writeControl →
    ∀ x, c.control.records x = true → t.core.control.records x = true
  raised : ∀ op raised, i.mnemonic = .float op → op.raised? i c.control = some raised →
    ∀ x, t.core.control.records x = (c.control.records x || raised.raises x)
  traps : ∀ op raised, i.mnemonic = .float op → op.raised? i c.control = some raised →
    (fault ≠ none ↔ c.control.Traps raised (TrapQualifier.ofFunction i.function))
  trapped : ∀ op raised, i.mnemonic = .float op → op.raised? i c.control = some raised →
    ∀ f, fault = some f → (∃ sum, f = .arithmeticTraps sum) ∧ t.instruction.dest = i.dest
  silent : (∀ op, i.mnemonic = .float op → op ≠ .writeControl ∧ op.raised? i c.control = none) →
    t.core.control = c.control

theorem floatAccount_of_kept {c : Core π} {i : Instruction} {fault : Option Fault}
    {t : Execution π} (hm : ∀ op, i.mnemonic ≠ .float op) (h : t.core.control = c.control) :
    FloatAccount c i fault t where
  wellFormed hc := by rwa [h]
  settings _ := by rw [h]
  sticky _ x hx := by rwa [h]
  raised op _ hop := absurd hop (hm op)
  traps op _ hop := absurd hop (hm op)
  trapped op _ hop := absurd hop (hm op)
  silent _ := h

theorem ended_of_raised {op : FloatOp} {i : Instruction} {control : FloatControl}
    {raised : FloatFlags} {fault : Option Fault} {kept : Prop}
    (h : op.raised? i control = some raised)
    (hfault : match fault with
      | none => ∃ value, (op.execute i control).result = .ok value
      | some f => (op.execute i control).result = .error f ∧ kept) :
    (fault ≠ none ↔ control.Traps raised (TrapQualifier.ofFunction i.function)) ∧
      ∀ f, fault = some f → (∃ sum, f = .arithmeticTraps sum) ∧ kept := by
  rcases FloatOp.execute_traps h with ⟨htraps, sum, hsum⟩ | ⟨hquiet, value, hvalue⟩
  · cases fault with
    | none =>
      obtain ⟨value, hvalue⟩ := hfault
      rw [hsum] at hvalue
      cases hvalue
    | some f =>
      obtain ⟨hresult, hkept⟩ := hfault
      rw [hsum] at hresult
      cases hresult
      refine ⟨iff_of_true (Option.some_ne_none _) htraps, ?_⟩
      rintro _ ⟨⟩
      exact ⟨⟨sum, rfl⟩, hkept⟩
  · cases fault with
    | none => exact ⟨iff_of_false (fun hne => hne rfl) hquiet, fun f hf => by cases hf⟩
    | some f =>
      obtain ⟨hresult, -⟩ := hfault
      rw [hvalue] at hresult
      cases hresult

theorem floatAccount_of_float {op : FloatOp} {c : Core π} {i : Instruction} {fault : Option Fault}
    {t : Execution π} (hm : i.mnemonic = .float op)
    (hcontrol : t.core.control = (op.execute i c.control).control)
    (hfault : match fault with
      | none => ∃ value, (op.execute i c.control).result = .ok value
      | some f => (op.execute i c.control).result = .error f ∧ t.instruction.dest = i.dest) :
    FloatAccount c i fault t := by
  have hop {o : FloatOp} (ho : i.mnemonic = .float o) : o = op := by
    rw [hm] at ho
    cases ho
    rfl
  have hsame (hwrite : i.mnemonic ≠ .float .writeControl) :
      ∃ raised, t.core.control = c.control.record raised := by
    rw [hcontrol]
    cases h : op.raised? i c.control with
    | some raised => exact ⟨raised, FloatOp.record_raised h⟩
    | none =>
      exact ⟨.none, FloatOp.control_of_silent (fun heq => hwrite (hm.trans (by rw [heq]))) h⟩
  refine ⟨fun hc => ?_, fun hwrite => ?_, fun hwrite x hx => ?_, ?_, ?_, ?_, ?_⟩
  · by_cases hwrite : op = .writeControl
    · rw [hcontrol, hwrite]
      exact FloatControl.wellFormed_write _
    · obtain ⟨raised, h⟩ := hsame fun heq => hwrite (hop heq).symm
      rw [h]
      exact hc.record raised
  · obtain ⟨raised, h⟩ := hsame hwrite
    rw [h, FloatControl.settings_record]
  · obtain ⟨raised, h⟩ := hsame hwrite
    rw [h, FloatControl.records_record, hx, Bool.true_or]
  · intro o raised ho h x
    obtain rfl := hop ho
    rw [hcontrol, FloatOp.record_raised h, FloatControl.records_record]
  · intro o raised ho h
    obtain rfl := hop ho
    exact (ended_of_raised h hfault).1
  · intro o raised ho h
    obtain rfl := hop ho
    exact (ended_of_raised h hfault).2
  · intro hsilent
    obtain ⟨hwrite, hnone⟩ := hsilent op hm
    rw [hcontrol, FloatOp.control_of_silent hwrite hnone]

end Execution

namespace Core

variable {π : Type}

theorem apart_control : Apart (control : Core π → FloatControl) where

theorem stable_control (control : FloatControl) : Stable fun c : Core π => c.control = control :=
  apart_control.stable control

theorem control_writeIndex (c : Core π) (index : Nat) (value : Word) :
    (c.writeIndex index value).control = c.control := by
  unfold writeIndex
  split
  · rename_i r _
    cases r <;> rfl
  · rfl

end Core

namespace Execution

open EV6.Core

variable {π : Type} [BlockDevice π]

theorem dispatch_float (op : FloatOp) (e : Execution π) :
    dispatch (.float op) e = executeFloat op e := rfl

theorem execute_accounts (c : Core π) (i : Instruction) :
    (c.execute i).Ends (fun _ t => FloatAccount c i none t)
      (fun fault t => FloatAccount c i (some fault) t) (∀ op, i.mnemonic ≠ .float op) := by
  by_cases hfloat : ∃ op, i.mnemonic = .float op
  · obtain ⟨op, hm⟩ := hfloat
    unfold Core.execute Execution.execute
    change (dispatch i.mnemonic ⟨c, { i with state := .waitingRetirement }⟩).Ends _ _ _
    rw [hm, dispatch_float]
    refine (executeFloat_ends op _).mono ?_ ?_ False.elim
    · rintro _ t ⟨hcontrol, hresult⟩
      exact floatAccount_of_float hm hcontrol hresult
    · rintro fault t ⟨hcontrol, hresult, hsame⟩
      exact floatAccount_of_float hm hcontrol ⟨hresult, by rw [hsame]⟩
  · have hm : ∀ op, i.mnemonic ≠ .float op := fun op h => hfloat ⟨op, h⟩
    refine ((stable_control c.control).execute (fun op h => absurd h (hm op)) ?_ rfl).mono ?_ ?_
      fun _ => hm
    · exact fun _ d hd => (control_writeIndex d _ _).trans hd
    · exact fun _ t ht => floatAccount_of_kept hm ht
    · exact fun _ t ht => floatAccount_of_kept hm ht

omit [BlockDevice π] in
theorem control_commitBranch (i : Instruction) (outcome : BranchOutcome) (c : Core π) :
    (c.commitBranch i outcome).control = c.control := by
  unfold commitBranch palReturn
  split
  · rfl
  · split <;> rfl
  · split <;> rfl

theorem control_retire (c : Core π) (i : Instruction) :
    (c.retire i).Ends (fun _ t => t.core.control = c.control) (fun _ t => t.core.control = c.control)
      True := by
  refine (stable_control c.control).retire i (J := fun d => d.control = c.control) (fun d hd => ?_) rfl
  change (committed d i).control = c.control
  unfold committed
  split
  · exact hd
  · exact (control_commitBranch i _ d).trans hd

end Execution

namespace Core

open Execution

variable {π : Type} [BlockDevice π] {c t : Core π}

theorem operate_control {op : Operation} (hop : ∀ i, op ≠ .execute i)
    (ht : c.operate op = some t) : t.control = c.control := by
  by_cases hservice : op.Service
  · exact (stable_control c.control).service hservice rfl ht
  · cases op with
    | execute i => exact absurd rfl (hop i)
    | retire i => exact stable_left (I := fun d => d.control = c.control) (control_retire c i) ht
    | writeIndex index value =>
      cases ht
      exact control_writeIndex c index value
    | palReturn target =>
      cases ht
      unfold palReturn
      split <;> rfl
    | enterPal | callPal | setModes =>
      cases ht
      rfl
    | _ => exact absurd trivial hservice

theorem wellFormed_operate {op : Operation} (hc : c.control.WellFormed)
    (ht : c.operate op = some t) : t.control.WellFormed := by
  by_cases hop : ∃ i, op = .execute i
  · obtain ⟨i, rfl⟩ := hop
    obtain ⟨e, he, rfl⟩ := leftBy_eq_some ht
    rcases (execute_accounts c i).of_state he with ⟨_, h⟩ | ⟨_, h⟩ <;> exact h.wellFormed hc
  · rw [operate_control (fun i h => hop ⟨i, h⟩) ht]
    exact hc

omit [BlockDevice π] in
theorem control_ofConfig {config : Config} {port : π} (h : ofConfig config port = .ok c) :
    c.control = .reset := (fresh_ofConfig h).control

theorem float_control_integrity {config : Config} {port : π} (h : Reachable config port c)
    (i : Instruction) :
    c.control.WellFormed ∧
      (∀ fault t, Session.ended (c.execute i) = .ok (fault, t) → FloatAccount c i fault t) ∧
      (∀ op, i.mnemonic = .float op →
        ∃ fault t, Session.ended (c.execute i) = .ok (fault, t)) ∧
      ∀ op t, (∀ i, op ≠ .execute i) → c.operate op = some t → t.control = c.control := by
  refine ⟨?_, fun fault t ht => ?_, fun op hop => ?_, fun op t => operate_control⟩
  · refine h.invariant (fun hstart => ?_) wellFormed_operate
    rw [control_ofConfig hstart]
    exact FloatControl.wellFormed_reset
  · rcases ended_ok ((execute_accounts c i).mono (fun _ _ h => h) (fun _ _ h => h)
      fun _ => trivial) ht with ⟨h, rfl⟩ | ⟨f, h, rfl⟩ <;> exact h
  · have hends := execute_accounts c i
    cases hrun : c.execute i with
    | done a t => exact ⟨none, t, rfl⟩
    | failed f t => exact ⟨some f, t, rfl⟩
    | broken b =>
      rw [hrun] at hends
      exact absurd hop (hends op)

def divideByZero : Instruction :=
  { Instruction.ofMnemonic (.float (.ieee (.arithmetic .div .t))) 1 with
    first := .float .t 0x3FF0000000000000 }

theorem float_control_divided :
    ∃ core : Core MemoryPort, ofConfig Config.stock MemoryPort.sample = .ok core ∧
      core.control.WellFormed ∧
      ∃ sum t, Session.ended (core.execute divideByZero) = .ok (some (.arithmeticTraps sum), t) ∧
        FloatAccount core divideByZero (some (.arithmeticTraps sum)) t ∧
        t.core.control.records .divideByZero = true := by
  have hcore : ofConfig Config.stock MemoryPort.sample = .ok _ := rfl
  have hreach := Reachable.start hcore
  obtain ⟨hwell, haccount, -, -⟩ := float_control_integrity hreach divideByZero
  refine ⟨_, hcore, hwell, _, _, rfl, haccount _ _ rfl, rfl⟩

end Core

end EV6
