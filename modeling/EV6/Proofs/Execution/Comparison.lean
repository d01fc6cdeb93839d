import EV6.Proofs.Execution.Executed
import EV6.Proofs.Execution.FloatStatus
import EV6.Proofs.Float.Order

namespace EV6

open Step Outcome Execution

variable {π : Type}

def RegisterValue.IsAnswer (value : RegisterValue) : Prop :=
  value = .float .t compareTrue ∨ value = .float .t 0

theorem IeeeContext.Rejects.traps {function : Longword} {control : FloatControl} {reg : Word}
    (h : (IeeeContext.ofFunction function control).Rejects .t reg) :
    control.Traps .ofInvalid (TrapQualifier.ofFunction function) :=
  ⟨.invalid, rfl, rfl, fun hdisabled => Bool.false_ne_true (h.2.1.symm.trans hdisabled.1)⟩

namespace Execution

theorem compare_result {relation : FloatRelation} {i : Instruction} {control : FloatControl}
    {value : Option RegisterValue}
    (h : (FloatOp.execute (.ieee (.compare relation)) i control).result = .ok value) :
    ∃ answer : RegisterValue, value = some answer ∧ answer.IsAnswer := by
  obtain ⟨ctx, hctx⟩ : ∃ ctx, ctx = IeeeContext.ofFunction i.function control := ⟨_, rfl⟩
  have hread : ¬(ctx.Rejects .t i.a ∨ ctx.Rejects .t i.b) := by
    intro hrejects
    have hraised : (IeeeOp.compare relation).raised i control = .ofInvalid := by
      rw [IeeeOp.raised, IeeeOp.compute, ← hctx, IeeeContext.compare_of_rejects hrejects relation]
      rfl
    have htraps : control.Traps .ofInvalid (TrapQualifier.ofFunction i.function) := by
      subst hctx
      rcases hrejects with hrejects | hrejects <;> exact hrejects.traps
    rw [← hraised] at htraps
    have hraises : (FloatOp.ieee (.compare relation)).raised? i control =
        some ((IeeeOp.compare relation).raised i control) := rfl
    rcases FloatOp.execute_traps hraises with ⟨-, sum, hsum⟩ | ⟨hquiet, -⟩
    · rw [hsum] at h
      cases h
    · exact hquiet htraps
  obtain ⟨ha, hb⟩ := not_or.mp hread
  have hbits := IeeeContext.compare_bits ha hb relation
  simp only [FloatOp.execute, IeeeOp.execute, IeeeOp.compute, ← hctx] at h
  split at h
  · cases h
  · obtain rfl := Except.ok.inj h
    refine ⟨_, rfl, ?_⟩
    rcases hbits with hbits | hbits <;> simp [IeeeOp.value, RegisterValue.IsAnswer, hbits]

theorem executeFloat_compare (relation : FloatRelation) (e : Execution π) :
    (executeFloat (.ieee (.compare relation)) e).Ends
      (fun _ t => t.instruction.dest.IsAnswer ∧ t.instruction.slot = e.instruction.slot)
      (fun _ _ => True) False := by
  unfold executeFloat
  rw [bind_done (get_apply e)]
  dsimp only
  rw [bind_done (modify_apply _ _)]
  cases h : (FloatOp.execute (.ieee (.compare relation)) e.instruction e.core.control).result with
  | ok value =>
    obtain ⟨answer, rfl, hanswer⟩ := compare_result h
    exact ⟨hanswer, rfl⟩
  | error fault => trivial

end Execution

def Instruction.Answers (i : Instruction) : Prop :=
  ∀ relation, i.mnemonic = .float (.ieee (.compare relation)) → i.dest.IsAnswer ∧ i.slot = none

variable [BlockDevice π]

theorem Core.execute_answers (c : Core π) {i : Instruction} (fresh : i.Fresh) :
    (c.execute i).Ends (fun _ t => t.instruction.Answers) (fun _ _ => True) True := by
  have hkept := mnemonic_dispatch i.mnemonic (⟨c, { i with state := .waitingRetirement }⟩ : Execution π)
  by_cases hcompare : ∃ relation, i.mnemonic = .float (.ieee (.compare relation))
  · obtain ⟨relation, hm⟩ := hcompare
    have hends := executeFloat_compare relation
      (⟨c, { i with state := .waitingRetirement }⟩ : Execution π)
    rw [← dispatch_float, ← hm] at hends
    refine hends.mono ?_ (fun _ _ _ => trivial) False.elim
    rintro _ t ⟨hanswer, hslot⟩ _ -
    exact ⟨hanswer, hslot.trans fresh.slot⟩
  · refine hkept.mono ?_ (fun _ _ _ => trivial) id
    intro _ t ht relation hm
    exact absurd ⟨relation, (ht.symm.trans hm)⟩ hcompare

theorem retires_answer {core : Core π} {events : List Event} {past rest : List (Moment π)}
    {m : Moment π} {index : Nat} {r : Record} {relation : FloatRelation}
    (htrace : Session.trace events (.ofCore core) = past ++ m :: rest)
    (hm : m.retires = some (index, r)) (hfault : r.fault = none)
    (hcompare : r.instruction.mnemonic = .float (.ieee (.compare relation))) :
    r.instruction.dest.IsAnswer := by
  obtain ⟨x, -, -, e, he, hlasts⟩ := left_of_trace htrace (Moment.record_of_retires hm)
  rcases Moment.execution_ends he fun i fresh => x.before.core.execute_answers fresh with
    ⟨hanswers, -⟩ | ⟨f, -, hf⟩
  · rw [hlasts.mnemonic] at hcompare
    obtain ⟨hanswer, hslot⟩ := hanswers relation hcompare
    rw [(hlasts.settled hslot).2]
    exact hanswer
  · rw [hfault] at hf
    cases hf

theorem comparisons_decide_order :
    (∀ (ctx : IeeeContext) (a b : Word), ¬ctx.Rejects .t a → ¬ctx.Rejects .t b →
      ((NotANumber.isNaN a = true ∧ ∀ x, ¬ctx.Reads a x) ∨
        NotANumber.isNaN a = false ∧ ∃! x, ctx.Reads a x) ∧
      (∀ relation, ctx.ComparesExtended relation a b (ctx.compare relation a b)) ∧
      (NotANumber.isNaN a = false → NotANumber.isNaN b = false →
        [ctx.compare .less a b, ctx.compare .equal a b, ctx.compare .less b a].countP
          (·.bits == compareTrue) = 1)) ∧
    (∀ (a b : Word) (x y : ℚ), VaxFormat.g.number? a = some x → VaxFormat.g.number? b = some y →
      ∀ relation, ∃ r, Vax.compare relation a b = .ok r ∧ r.Reports (relation.Relates x y) ∧
        r.flags = .none) ∧
    ∀ (core : Core π) (events : List Event) (past rest : List (Moment π)) (m : Moment π)
      (index : Nat) (r : Record) (relation : FloatRelation),
      Session.trace events (.ofCore core) = past ++ m :: rest → m.retires = some (index, r) →
        r.fault = none → r.instruction.mnemonic = .float (.ieee (.compare relation)) →
          r.instruction.dest.IsAnswer :=
  ⟨fun _ _ _ ha hb => ⟨IeeeContext.isNaN_or_reads ha, IeeeContext.compare_spec ha hb,
      IeeeContext.compare_trichotomy ha hb⟩,
    fun _ _ _ _ ha hb relation => Vax.compare_spec ha hb relation,
    fun _ _ _ _ _ _ _ _ htrace hm hfault hcompare => retires_answer htrace hm hfault hcompare⟩

def oneBelowTwo : Instruction :=
  { Instruction.ofMnemonic (.float (.ieee (.compare .less))) 1 with
    first := .float .t 0x3FF0000000000000
    second := .register (.float .t 0x4000000000000000) }

def comparisonRun : List Event := [.execute oneBelowTwo ⟨rfl, rfl⟩, .retire 0]

theorem comparisonRun_retires :
    ∃ core, Core.ofConfig Config.stock MemoryPort.sample = .ok core ∧
      ∃ past m, Session.trace comparisonRun (.ofCore core) = past ++ [m] ∧
        ∃ r, m.retires = some (0, r) ∧ r.fault = none ∧
          r.instruction.mnemonic = .float (.ieee (.compare .less)) :=
  ⟨_, rfl, [_], _, rfl, _, rfl, rfl, rfl⟩

theorem one_compared_with_two :
    (¬IeeeContext.downward.Rejects .t 0x3FF0000000000000 ∧
      ¬IeeeContext.downward.Rejects .t NotANumber.canonical ∧
      IeeeContext.downward.ComparesExtended .less 0x3FF0000000000000 NotANumber.canonical
        (IeeeContext.downward.compare .less 0x3FF0000000000000 NotANumber.canonical)) ∧
    ((NotANumber.isNaN 0x3FF0000000000000 = false ∧ NotANumber.isNaN 0x4000000000000000 = false) ∧
      [IeeeContext.downward.compare .less 0x3FF0000000000000 0x4000000000000000,
        IeeeContext.downward.compare .equal 0x3FF0000000000000 0x4000000000000000,
        IeeeContext.downward.compare .less 0x4000000000000000 0x3FF0000000000000].countP
          (·.bits == compareTrue) = 1) ∧
    (VaxFormat.g.number? 0x4020000000000000 = some 2 ∧
      ∃ r, Vax.compare .equal 0x4020000000000000 0x4020000000000000 = .ok r ∧
        r.Reports ((2 : ℚ) = 2) ∧ r.flags = .none) ∧
    ∃ core, Core.ofConfig Config.stock MemoryPort.sample = .ok core ∧
      ∃ past m, Session.trace comparisonRun (.ofCore core) = past ++ [m] ∧
        ∃ r, m.retires = some (0, r) ∧ r.instruction.dest.IsAnswer := by
  have hread (reg : Word) : ¬IeeeContext.downward.Rejects .t reg := by
    rintro ⟨-, hsoftware, -⟩
    exact Bool.false_ne_true hsoftware.symm
  have htwo : VaxFormat.g.number? 0x4020000000000000 = some 2 :=
    (VaxFormat.encodes_two (by decide)).number?_eq
  obtain ⟨hieee, hvax, hruns⟩ := comparisons_decide_order (π := MemoryPort)
  obtain ⟨core, hcore, past, m, htrace, r, hretires, hfault, hcompare⟩ := comparisonRun_retires
  have hordered : NotANumber.isNaN 0x3FF0000000000000 = false := by decide
  have hordered' : NotANumber.isNaN 0x4000000000000000 = false := by decide
  exact ⟨⟨hread _, hread _, (hieee _ _ _ (hread _) (hread _)).2.1 .less⟩,
    ⟨⟨hordered, hordered'⟩, (hieee _ _ _ (hread _) (hread _)).2.2 hordered hordered'⟩,
    ⟨htwo, hvax _ _ _ _ htwo htwo .equal⟩, core, hcore, past, m, htrace, r, hretires,
    hruns core _ past [] m 0 r .less htrace hretires hfault hcompare⟩

end EV6
