import EV6.Proofs.Execution.Events
import EV6.Proofs.Execution.Retirement
import EV6.Proofs.Mbox.LoadSlots

namespace EV6

open Step Outcome Execution

variable {π : Type} [BlockDevice π] {past : List (Moment π)} {s t : Session π} {event : Event}

omit [BlockDevice π] in
theorem ended_ok {o : Outcome (Execution π) Fault Unit} {Q : Unit → Execution π → Prop}
    {E : Fault → Execution π → Prop} (h : o.Ends Q E True) {fault : Option Fault} {e : Execution π}
    (he : Session.ended o = .ok (fault, e)) : Q () e ∧ fault = none ∨ ∃ f, E f e ∧ fault = some f := by
  cases o with
  | done a t =>
    cases he
    exact .inl ⟨h, rfl⟩
  | failed f t =>
    cases he
    exact .inr ⟨f, h, rfl⟩
  | broken b => cases he

theorem step_execute_ends {i : Instruction} {fresh : i.Fresh} {Q : Execution π → Prop}
    {E : Fault → Execution π → Prop} (hends : (s.core.execute i).Ends (fun _ => Q) E True)
    (ht : s.step (.execute i fresh) = .ok t) :
    ∃ e fault, t = { s with core := e.core, records := s.records.push ⟨e.instruction, fault⟩ } ∧
      (Q e ∧ fault = none ∨ ∃ f, E f e ∧ fault = some f) := by
  simp only [Session.step, Session.execute] at ht
  cases h : Session.ended (s.core.execute i) with
  | error b =>
    rw [h] at ht
    cases ht
  | ok answer =>
    obtain ⟨fault, e⟩ := answer
    rw [h] at ht
    cases ht
    exact ⟨e, fault, rfl, ended_ok hends h⟩

theorem step_execute {i : Instruction} {fresh : i.Fresh} (ht : s.step (.execute i fresh) = .ok t) :
    ∃ e fault, t = { s with core := e.core, records := s.records.push ⟨e.instruction, fault⟩ } ∧
      Executed ⟨s.core, i⟩ e ∧
      (fault = none → i.isStoreConditional = true → Decided ⟨s.core, i⟩ e) := by
  obtain ⟨e, fault, rfl, ⟨⟨he, hd⟩, -⟩ | ⟨f, he, hf⟩⟩ :=
    step_execute_ends (s.core.execute_ends fresh.lock fresh.slot) ht
  · exact ⟨e, fault, rfl, he, fun _ => hd⟩
  · exact ⟨e, fault, rfl, he, fun hnone => by rw [hf] at hnone; cases hnone⟩

theorem step_retire_ends {index : Nat} {Q : Instruction → Execution π → Prop}
    (hends : ∀ i, (s.core.retire i).Ends (fun _ => Q i) (fun _ => Q i) True)
    (ht : s.step (.retire index) = .ok t) :
    s.records[index]? = none ∧ t = s ∨
    ∃ r e, s.records[index]? = some r ∧ Q r.instruction e ∧
      t = { s with
        core := e.core
        records := s.records.modify index fun r => { r with instruction := e.instruction } } := by
  simp only [Session.step, Session.retire] at ht
  cases hr : s.records[index]? with
  | none =>
    rw [hr] at ht
    cases ht
    exact .inl ⟨rfl, rfl⟩
  | some r =>
    rw [hr] at ht
    simp only at ht
    cases h : Session.ended (s.core.retire r.instruction) with
    | error b =>
      rw [h] at ht
      cases ht
    | ok answer =>
      obtain ⟨fault, e⟩ := answer
      rw [h] at ht
      cases ht
      refine .inr ⟨r, e, rfl, ?_, rfl⟩
      rcases ended_ok (hends r.instruction) h with ⟨he, -⟩ | ⟨f, he, -⟩
      · exact he
      · exact he

omit [BlockDevice π] in
theorem withOutcome_ok {ε α : Type} {o : Outcome (Core π) ε α} (ht : s.withOutcome o = .ok t)
    {Q : α → Core π → Prop} {E : ε → Core π → Prop} (ho : o.Ends Q E True) :
    t.records = s.records ∧
      ((∃ a, o = .done a t.core ∧ Q a t.core) ∨ ∃ e, o = .failed e t.core ∧ E e t.core) := by
  cases o with
  | done a c =>
    cases ht
    exact ⟨rfl, .inl ⟨a, rfl, ho⟩⟩
  | failed e c =>
    cases ht
    exact ⟨rfl, .inr ⟨e, rfl, ho⟩⟩
  | broken b => cases ht

omit [BlockDevice π] in
theorem withOutcome_keeps {ε α : Type} {x : Step (Core π) ε α} (hx : Keeps Core.lock x)
    (ht : s.withOutcome (x s.core) = .ok t) :
    t.records = s.records ∧ t.core.lock = s.core.lock := by
  obtain ⟨hrecords, ⟨a, -, hlock⟩ | ⟨e, -, hlock⟩⟩ := withOutcome_ok ht (hx s.core)
  · exact ⟨hrecords, hlock⟩
  · exact ⟨hrecords, hlock⟩

theorem delivers_lasts {polls : Nat} {q : LoadQueue} {i j : Instruction}
    (h : Mbox.Delivers polls q i j) : i.Lasts j := by
  obtain ⟨slot, e, hslot, -, -, -, rfl⟩ := h
  exact ⟨rfl, rfl, fun hnone => by rw [hslot] at hnone; cases hnone⟩

theorem deliverAll_lasts {polls : Nat} {q : LoadQueue} {pending : List Instruction} {n : Nat}
    {j : Instruction} (h : (Mbox.deliverAll polls q pending).instructions[n]? = some j) :
    ∃ i, pending[n]? = some i ∧ i.Lasts j := by
  have hn : n < pending.length := by
    rw [← Mbox.deliverAll_length polls q]
    exact (List.getElem?_eq_some_iff.mp h).1
  refine ⟨pending[n], List.getElem?_eq_getElem hn, ?_⟩
  rcases Mbox.deliverAll_spec (List.getElem?_eq_getElem hn) h with hsame | hdelivers
  · rw [hsame]
    exact .refl _
  · exact delivers_lasts hdelivers

def Follows (s t : Session π) : Prop :=
  ∀ (n : Nat) (r : Record), t.records[n]? = some r →
    ∃ (q : Record) (j : Instruction), s.records[n]? = some q ∧ q.instruction.Lasts j ∧
      r = { q with instruction := j }

omit [BlockDevice π] in
theorem Follows.of_same (h : t.records = s.records) : Follows s t := by
  intro n r hr
  rw [h] at hr
  exact ⟨r, r.instruction, hr, .refl _, rfl⟩

omit [BlockDevice π] in
theorem follows_poll (s : Session π) : Follows s s.poll.2 := by
  intro n r hr
  change (s.records.zipWith (fun r i => { r with instruction := i }) _)[n]? = some r at hr
  rw [Array.getElem?_zipWith_eq_some] at hr
  obtain ⟨q, j, hq, hj, rfl⟩ := hr
  rw [List.getElem?_toArray] at hj
  obtain ⟨i, hi, hlasts⟩ := deliverAll_lasts hj
  rw [List.getElem?_map, Array.getElem?_toList, hq] at hi
  cases hi
  exact ⟨q, j, hq, hlasts, rfl⟩

omit [BlockDevice π] in
theorem follows_retired {index : Nat} {r : Record} {e : Execution π}
    (hr : s.records[index]? = some r) (he : Retired s.core r.instruction e) :
    Follows s { s with
      core := e.core
      records := s.records.modify index fun r => { r with instruction := e.instruction } } := by
  intro n r' hr'
  rw [Array.getElem?_modify] at hr'
  split at hr'
  · rename_i hn
    subst hn
    rw [hr] at hr'
    cases hr'
    exact ⟨r, e.instruction, hr, he.record, rfl⟩
  · exact ⟨r', r'.instruction, hr', .refl _, rfl⟩

theorem follows_or_executes (ht : s.step event = .ok t) :
    Follows s t ∨ ∃ i fresh, event = .execute i fresh := by
  cases event with
  | execute i fresh => exact .inr ⟨i, fresh, rfl⟩
  | retire index =>
    rcases step_retire_ends s.core.retire_ends ht with ⟨-, rfl⟩ | ⟨q, e, hq, he, rfl⟩
    · exact .inl (.of_same rfl)
    · exact .inl (follows_retired hq he)
  | poll =>
    cases ht
    exact .inl (follows_poll s)
  | fetch pc => exact .inl (.of_same (withOutcome_keeps (Core.keeps_fetch pc) ht).1)
  | enterPal fault seq pc =>
    cases ht
    exact .inl (.of_same rfl)
  | probeInvalidate pa =>
    exact .inl (.of_same (withOutcome_ok ht (s.core.probeInvalidate_ends pa)).1)
  | probeShare pa => exact .inl (.of_same (withOutcome_keeps (Core.keeps_probeShare pa) ht).1)

def Moment.Left (m : Moment π) (index : Nat) (r : Record) : Prop :=
  m.executes = some index ∧ ∃ e, m.execution = some (r.fault, e) ∧ e.instruction.Lasts r.instruction

theorem Moment.Left.lasts {m : Moment π} {index : Nat} {r : Record} {j : Instruction}
    (h : m.Left index r) (hj : r.instruction.Lasts j) : m.Left index { r with instruction := j } := by
  obtain ⟨hindex, e, he, hr⟩ := h
  exact ⟨hindex, e, he, hr.trans hj⟩

theorem Moment.execution_ends {m : Moment π} {fault : Option Fault} {e : Execution π}
    (h : m.execution = some (fault, e)) {Q : Execution π → Prop} {E : Fault → Execution π → Prop}
    (hends : ∀ i : Instruction, i.Fresh → (m.before.core.execute i).Ends (fun _ => Q) E True) :
    Q e ∧ fault = none ∨ ∃ f, E f e ∧ fault = some f := by
  unfold Moment.execution at h
  split at h
  · rename_i i fresh _
    cases ho : Session.ended (m.before.core.execute i) with
    | error b =>
      rw [ho] at h
      cases h
    | ok answer =>
      rw [ho] at h
      cases h
      exact ended_ok (hends i fresh) ho
  · cases h

def AllLeft (past : List (Moment π)) (s : Session π) : Prop :=
  ∀ index r, s.records[index]? = some r → ∃ m ∈ past, m.Left index r

theorem left_of_execute {i : Instruction} {fresh : i.Fresh} (ht : s.step (.execute i fresh) = .ok t)
    {index : Nat} {r : Record} (hr : t.records[index]? = some r) :
    s.records[index]? = some r ∨ (⟨s, .execute i fresh⟩ : Moment π).Left index r := by
  simp only [Session.step, Session.execute] at ht
  cases h : Session.ended (s.core.execute i) with
  | error b =>
    rw [h] at ht
    cases ht
  | ok answer =>
    obtain ⟨fault, e⟩ := answer
    rw [h] at ht
    cases ht
    rw [Array.getElem?_push] at hr
    split at hr
    · rename_i hindex
      cases hr
      exact .inr ⟨congrArg some hindex.symm, e, congrArg Except.toOption h, .refl _⟩
    · exact .inl hr

theorem AllLeft.step (h : AllLeft past s) (ht : s.step event = .ok t) :
    AllLeft (past ++ [⟨s, event⟩]) t := by
  intro index r hr
  rcases follows_or_executes ht with hfollows | ⟨i, fresh, rfl⟩
  · obtain ⟨q, j, hq, hj, rfl⟩ := hfollows index r hr
    obtain ⟨m, hm, hleft⟩ := h index q hq
    exact ⟨m, List.mem_append_left _ hm, hleft.lasts hj⟩
  · rcases left_of_execute ht hr with hold | hleft
    · obtain ⟨m, hm, hleft⟩ := h index r hold
      exact ⟨m, List.mem_append_left _ hm, hleft⟩
    · exact ⟨_, by simp, hleft⟩

theorem left_of_trace {core : Core π} {events : List Event} {rest : List (Moment π)} {m : Moment π}
    (htrace : Session.trace events (.ofCore core) = past ++ m :: rest) {index : Nat} {r : Record}
    (hr : m.before.records[index]? = some r) : ∃ x ∈ past, x.Left index r := by
  have hstart : AllLeft [] (Session.ofCore core) := by
    intro index r hr
    simp [Session.ofCore] at hr
  exact Session.trace_invariant AllLeft.step hstart htrace index r hr

end EV6
