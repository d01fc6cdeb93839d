import EV6.Execution.Session

namespace EV6

namespace Instruction

/-- A record as decoding makes it: nothing is in flight, and the lock is to stay. -/
structure Fresh (i : Instruction) : Prop where
  slot : i.slot = none
  lock : i.lock = .none

theorem fresh_decode (raw : Longword) (pc : Word) (seq : Nat) : (decode raw pc seq).Fresh :=
  ⟨rfl, rfl⟩

end Instruction

inductive Event where
  | execute (i : Instruction) (fresh : i.Fresh)
  | retire (index : Nat)
  | poll
  | fetch (pc : Word)
  | enterPal (fault : Fault) (seq : Nat) (pc : Word)
  | probeInvalidate (pa : Word)
  | probeShare (pa : Word)

namespace Session

variable {π : Type}

def withOutcome {ε α : Type} (s : Session π) : Outcome (Core π) ε α → Except Breach (Session π)
  | .done _ core => .ok { s with core }
  | .failed _ core => .ok { s with core }
  | .broken b => .error b

def step [BlockDevice π] (s : Session π) : Event → Except Breach (Session π)
  | .execute i _ => (s.execute i).map (·.2)
  | .retire index => (s.retire index).map (·.2)
  | .poll => .ok s.poll.2
  | .fetch pc => s.withOutcome (s.core.fetch pc)
  | .enterPal fault seq pc => .ok { s with core := (s.core.enterPal fault seq pc).2 }
  | .probeInvalidate pa => s.withOutcome (s.core.probeInvalidate pa)
  | .probeShare pa => s.withOutcome (s.core.probeShare pa)

end Session

structure Moment (π : Type) where
  before : Session π
  event : Event

namespace Moment

variable {π : Type}

def executes (m : Moment π) : Option Nat :=
  match m.event with
  | .execute _ _ => some m.before.records.size
  | _ => none

def execution [BlockDevice π] (m : Moment π) : Option (Option Fault × Execution π) :=
  match m.event with
  | .execute i _ => (Session.ended (m.before.core.execute i)).toOption
  | _ => none

def retires (m : Moment π) : Option (Nat × Record) :=
  match m.event with
  | .retire index => (m.before.records[index]?).map (index, ·)
  | _ => none

theorem record_of_retires {m : Moment π} {index : Nat} {r : Record}
    (h : m.retires = some (index, r)) : m.before.records[index]? = some r := by
  unfold retires at h
  split at h
  · simp only [Option.map_eq_some_iff, Prod.mk.injEq] at h
    obtain ⟨q, hq, rfl, rfl⟩ := h
    exact hq
  · cases h

def takes [BlockDevice π] (m : Moment π) (pa : Word) : Bool :=
  match m.event with
  | .probeInvalidate probed =>
    let line := m.before.core.memory.dcache.lineBytes
    match m.before.core.probeInvalidate probed with
    | .done _ _ => Address.lineBase pa line == Address.lineBase probed line
    | _ => false
  | _ => false

end Moment

namespace Session

variable {π : Type} [BlockDevice π]

def trace : List Event → Session π → List (Moment π)
  | [], _ => []
  | event :: events, s =>
    match s.step event with
    | .ok t => ⟨s, event⟩ :: trace events t
    | .error _ => []

theorem trace_invariant {Inv : List (Moment π) → Session π → Prop}
    (hstep : ∀ {past s event t}, Inv past s → s.step event = .ok t → Inv (past ++ [⟨s, event⟩]) t)
    {events : List Event} {past : List (Moment π)} {s : Session π} (h : Inv past s)
    {earlier rest : List (Moment π)} {m : Moment π}
    (htrace : trace events s = earlier ++ m :: rest) : Inv (past ++ earlier) m.before := by
  induction events generalizing past s earlier with
  | nil =>
    rw [trace] at htrace
    cases earlier <;> cases htrace
  | cons event events ih =>
    rw [trace] at htrace
    split at htrace
    · rename_i t ht
      cases earlier with
      | nil =>
        obtain ⟨rfl, -⟩ := List.cons.inj htrace
        simpa using h
      | cons first earlier =>
        obtain ⟨rfl, hrest⟩ := List.cons.inj htrace
        simpa using ih (hstep h ht) hrest
    · cases earlier <;> cases htrace

theorem trace_step {events : List Event} {s : Session π} {earlier rest : List (Moment π)}
    {m : Moment π} (htrace : trace events s = earlier ++ m :: rest) :
    ∃ t, m.before.step m.event = .ok t := by
  induction events generalizing s earlier with
  | nil =>
    rw [trace] at htrace
    cases earlier <;> cases htrace
  | cons event events ih =>
    rw [trace] at htrace
    split at htrace
    · rename_i t ht
      cases earlier with
      | nil =>
        obtain ⟨rfl, -⟩ := List.cons.inj htrace
        exact ⟨t, ht⟩
      | cons first earlier => exact ih (List.cons.inj htrace).2
    · cases earlier <;> cases htrace

end Session

theorem exists_since_snoc {α : Type} {start quiet : α → Prop} {past : List α} {last : α} :
    (∃ older m newer, past ++ [last] = older ++ m :: newer ∧ start m ∧ ∀ n ∈ newer, quiet n) ↔
      start last ∨
        quiet last ∧ ∃ older m newer, past = older ++ m :: newer ∧ start m ∧ ∀ n ∈ newer, quiet n := by
  constructor
  · rintro ⟨older, m, newer, hsplit, hm, hquiet⟩
    rcases List.eq_nil_or_concat newer with rfl | ⟨newer, x, rfl⟩
    · obtain ⟨-, hlast⟩ := List.append_inj' hsplit rfl
      cases hlast
      exact .inl hm
    · have hends : past ++ [last] = (older ++ m :: newer) ++ [x] := by simpa using hsplit
      obtain ⟨rfl, hlast⟩ := List.append_inj' hends rfl
      have hlast : last = x := by simpa using hlast
      refine .inr ⟨hquiet last (by simp [hlast]), older, m, newer, rfl, hm, fun n hn => ?_⟩
      exact hquiet n (by simp [hn])
  · rintro (hstart | ⟨hlast, older, m, newer, rfl, hm, hquiet⟩)
    · exact ⟨past, last, [], rfl, hstart, by simp⟩
    · refine ⟨older, m, newer ++ [last], by simp, hm, ?_⟩
      intro n hn
      rcases List.mem_append.mp hn with hn | hn
      · exact hquiet n hn
      · rw [List.mem_singleton.mp hn]
        exact hlast

end EV6
