import EV6.Proofs.Execution.Precision
import EV6.Proofs.Translation.Run
import Mathlib.Data.List.DropRight
/-!
The misses that wait to be serviced, over a whole run. Of each stream the address of the first miss
since the last event that services misses is pending, and a data-stream miss is double while one is.
-/

namespace EV6

open TranslationUnit

namespace TranslationStream

def missOf (s : TranslationStream) : Except Fault Word → Option Word
  | .error (.itbMiss va) => if s = .instruction then some va else none
  | .error (.dtbMiss va _) => if s = .data then some va else none
  | _ => none

end TranslationStream

namespace TranslationUnit

variable {u : TranslationUnit} {va : Word} {access : AccessKind} {mode : ProcessorMode}
  {iprs : InternalRegisters} {s : TranslationStream}

theorem missOf_checkAccess (e : PageEntry) (va : Word) (access : AccessKind)
    (mode : ProcessorMode) : s.missOf (checkAccess e va access mode) = none := by
  unfold checkAccess
  split
  · rfl
  · split
    · rfl
    · cases access <;> dsimp only <;> split <;> rfl

theorem missOf_resolve {answer : Except Fault Word}
    (h : u.resolve va access mode iprs = some answer) : s.missOf answer = none := by
  unfold resolve at h
  split at h
  · cases h
    rfl
  · split at h
    · cases h
      rfl
    · obtain ⟨e, -, rfl⟩ := Option.map_eq_some_iff.mp h
      exact missOf_checkAccess e va access mode

theorem missOf_missFault (u : TranslationUnit) (va : Word) (access : AccessKind) :
    s.missOf (.error (u.missFault va access)) = if s = access.stream then some va else none := by
  cases access <;> rfl

theorem missOf_translate (u : TranslationUnit) (va : Word) (access : AccessKind)
    (mode : ProcessorMode) (iprs : InternalRegisters) (s : TranslationStream) :
    s.missOf (u.translate va access mode iprs).1 =
      if s = access.stream ∧ u.resolve va access mode iprs = none then some va else none := by
  rcases u.translate_cases va access mode iprs with ⟨answer, hr, ht⟩ | ⟨hr, ht⟩
  · simp [ht, hr, missOf_resolve hr]
  · simp [ht, hr, missOf_missFault]

theorem pending_translate (u : TranslationUnit) (va : Word) (access : AccessKind)
    (mode : ProcessorMode) (iprs : InternalRegisters) (s : TranslationStream) :
    ((u.translate va access mode iprs).2.buffer s).pending =
      (u.buffer s).pending.or (s.missOf (u.translate va access mode iprs).1) := by
  rcases u.translate_cases va access mode iprs with ⟨answer, hr, ht⟩ | ⟨-, ht⟩
  · rw [ht, missOf_resolve hr, Option.or_none]
  · rw [ht, missOf_missFault, recordMiss_eq]
    by_cases hs : s = access.stream
    · rw [if_pos hs, hs, buffer_withBuffer_self, TranslationBuffer.recordMiss]
      cases (u.buffer access.stream).pending <;> rfl
    · rw [if_neg hs, buffer_withBuffer_of_ne _ (Ne.symm hs), Option.or_none]

theorem translate_of_answered
    (h : ∀ s : TranslationStream, s.missOf (u.translate va access mode iprs).1 = none) :
    (u.translate va access mode iprs).2 = u := by
  rcases u.translate_cases va access mode iprs with ⟨_, -, ht⟩ | ⟨hr, -⟩
  · rw [ht]
  · have hknown := h access.stream
    rw [missOf_translate, if_pos ⟨rfl, hr⟩] at hknown
    cases hknown

theorem translate_of_missed {va' : Word}
    (h : s.missOf (u.translate va access mode iprs).1 = some va') :
    s = access.stream ∧ va' = va ∧
      (u.translate va access mode iprs).2 = u.recordMiss va access := by
  rw [missOf_translate] at h
  split at h
  · rename_i hmiss
    obtain ⟨hs, hr⟩ := hmiss
    rw [translate, hr]
    exact ⟨hs, (Option.some.inj h).symm, rfl⟩
  · cases h

end TranslationUnit

namespace TranslationBuffer

def Request.servicesMisses : Request → Bool
  | .load _ | .invalidateAll => true
  | .invalidateProcess | .invalidateSingle _ _ => false

theorem pending_serve {t b : TranslationBuffer} {r : Request} (h : t.serve r = .ok b) :
    b.pending = if r.servicesMisses then none else t.pending := by
  cases r with
  | load l =>
    obtain ⟨-, rfl⟩ := serve_load.mp h
    rfl
  | invalidateAll | invalidateProcess | invalidateSingle va asn =>
    cases h
    rfl

end TranslationBuffer

namespace TranslationEvent

def spares (s : TranslationStream) : TranslationEvent → Bool
  | .peek _ _ _ _ | .setRegisters _ => true
  | .translate _ access _ _ => access.stream != s
  | .serve stream request => stream != s || !request.servicesMisses
  | .palReturn target => target.getLsbD 0

end TranslationEvent

namespace TranslationMoment

variable {π : Type}

def misses (m : TranslationMoment π) (s : TranslationStream) : Option Word :=
  m.answer.bind s.missOf

def services (m : TranslationMoment π) (s : TranslationStream) : Bool :=
  match m.event with
  | .serve stream request => stream == s && request.servicesMisses
  | .palReturn target => !(m.before.palReturn target).palMode
  | _ => false

end TranslationMoment

variable {π : Type} {s : TranslationStream} {past : List (TranslationMoment π)}

def unserviced (s : TranslationStream) (past : List (TranslationMoment π)) :
    List (TranslationMoment π) :=
  past.rtakeWhile fun m => !m.services s

def Waits (s : TranslationStream) (past : List (TranslationMoment π)) : Prop :=
  ∃ m ∈ unserviced s past, (m.misses s).isSome = true

instance (s : TranslationStream) (past : List (TranslationMoment π)) : Decidable (Waits s past) :=
  inferInstanceAs (Decidable (∃ m ∈ unserviced s past, (m.misses s).isSome = true))

def firstMiss (s : TranslationStream) (past : List (TranslationMoment π)) : Option Word :=
  (unserviced s past).findSome? (·.misses s)

theorem isSome_firstMiss : (firstMiss s past).isSome = true ↔ Waits s past := by
  simp only [firstMiss, Waits, List.findSome?_isSome_iff]

theorem firstMiss_snoc {m : TranslationMoment π} : firstMiss s (past ++ [m]) =
    if m.services s then none else (firstMiss s past).or (m.misses s) := by
  unfold firstMiss unserviced
  rw [List.rtakeWhile_concat]
  cases m.services s with
  | true => rfl
  | false => simp [List.findSome?_append]

def Core.pendingMiss (c : Core π) (s : TranslationStream) : Option Word :=
  (c.translation.buffer s).pending

theorem pendingMiss_palReturn (c : Core π) (target : Word) (s : TranslationStream) :
    (c.palReturn target).pendingMiss s =
      if (c.palReturn target).palMode then c.pendingMiss s else none := by
  unfold Core.palReturn
  split
  · rfl
  · cases s <;> rfl

theorem pendingMiss_step {c t : Core π} {event : TranslationEvent}
    (ht : c.stepTranslation event = .ok t) (s : TranslationStream) :
    t.pendingMiss s = if (TranslationMoment.mk c event).services s then none
      else (c.pendingMiss s).or ((TranslationMoment.mk c event).misses s) := by
  cases event with
  | translate va access mode iprs =>
    cases ht
    exact c.translation.pending_translate va access mode iprs s
  | peek va access mode iprs =>
    cases ht
    exact (Option.or_none ..).symm
  | setRegisters iprs =>
    cases ht
    exact (Option.or_none ..).symm
  | palReturn target =>
    cases ht
    rw [pendingMiss_palReturn]
    cases hmode : (c.palReturn target).palMode <;>
      simp [TranslationMoment.services, TranslationMoment.misses, TranslationMoment.answer, hmode]
  | serve stream request =>
    obtain ⟨b, hb, rfl⟩ := Core.stepTranslation_serve ht
    have hmisses : (TranslationMoment.mk c (.serve stream request)).misses s = none := rfl
    rw [hmisses, Option.or_none]
    by_cases hs : stream = s
    · simp [TranslationMoment.services, Core.withTranslation, Core.pendingMiss, hs,
        TranslationBuffer.pending_serve (hs ▸ hb)]
    · simp [TranslationMoment.services, Core.withTranslation, Core.pendingMiss, hs,
        buffer_withBuffer_of_ne _ hs]

variable {start c t : Core π} {event : TranslationEvent} {itb dtb : Nat}

theorem pendingMiss_eq_firstMiss (hstart : ∀ s, start.pendingMiss s = none)
    (hrun : start.TranslationRun past c) (s : TranslationStream) :
    c.pendingMiss s = firstMiss s past := by
  induction hrun with
  | nil => exact hstart s
  | snoc hrun ht ih => rw [pendingMiss_step ht, firstMiss_snoc, ih]

theorem pending_build {u : TranslationUnit} (h : build itb dtb = .ok u) (s : TranslationStream) :
    (u.buffer s).pending = none := by
  rw [build_eq h]
  cases s <;> rfl

structure MissesClassified (past : List (TranslationMoment π)) (m : TranslationMoment π)
    (t : Core π) : Prop where
  pending : ∀ s, m.before.pendingMiss s = firstMiss s past
  kind : ∀ va kind, m.answer = some (.error (.dtbMiss va kind)) →
    kind = if Waits .data past then .double else .single
  missed : ∀ va access mode iprs, m.event = .translate va access mode iprs →
    (m.misses access.stream = some va ↔ isCanonical va = true ∧
      kernelSuperpage va access mode iprs = none ∧
      ∀ i e, (m.before.translation.buffer access.stream).Holds i e →
        e.matchesAddress va (spaceOf access iprs) = false)
  answered : ∀ answer, m.answer = some answer →
    (∀ s : TranslationStream, s.missOf answer = none) → t = m.before
  spared : ∀ s, m.event.spares s = true → t.pendingMiss s = m.before.pendingMiss s

theorem kind_of_answer {va : Word} {kind : MissKind}
    (h : (TranslationMoment.mk c event).answer = some (.error (.dtbMiss va kind))) :
    kind = c.translation.dtb.missKind := by
  cases event with
  | translate va' access mode iprs =>
    have hanswer := Option.some.inj h
    dsimp only at hanswer
    rcases c.translation.translate_cases va' access mode iprs with ⟨answer, hr, ht⟩ | ⟨-, ht⟩
    · rw [ht] at hanswer
      obtain rfl : answer = _ := hanswer
      cases missOf_resolve (s := .data) hr
    · rw [ht] at hanswer
      cases access <;> cases hanswer <;> rfl
  | peek | serve | setRegisters | palReturn => cases h

theorem misses_translate_iff {va : Word} {access : AccessKind} {mode : ProcessorMode}
    {iprs : InternalRegisters} :
    (TranslationMoment.mk c (.translate va access mode iprs)).misses access.stream = some va ↔
      c.translation.resolve va access mode iprs = none := by
  change access.stream.missOf (c.translation.translate va access mode iprs).1 = some va ↔ _
  simp [missOf_translate]

theorem eq_of_answered {answer : Except Fault Word} (ht : c.stepTranslation event = .ok t)
    (h : (TranslationMoment.mk c event).answer = some answer)
    (hno : ∀ s : TranslationStream, s.missOf answer = none) : t = c := by
  cases event with
  | translate va access mode iprs =>
    cases h
    cases ht
    exact congrArg c.withTranslation (translate_of_answered hno)
  | peek | serve | setRegisters | palReturn => cases h

theorem not_misses_of_spares (h : event.spares s = true) :
    (TranslationMoment.mk c event).misses s = none := by
  cases event with
  | translate va access mode iprs =>
    have hne : access.stream ≠ s := by simpa [TranslationEvent.spares] using h
    change s.missOf (c.translation.translate va access mode iprs).1 = none
    simp [missOf_translate, hne.symm]
  | peek | serve | setRegisters | palReturn => rfl

theorem not_services_of_spares (h : event.spares s = true) :
    (TranslationMoment.mk c event).services s = false := by
  cases event with
  | serve stream request =>
    by_cases hs : stream = s <;>
      simp_all [TranslationEvent.spares, TranslationMoment.services]
  | palReturn target =>
    have hbit : target.getLsbD 0 = true := h
    simp [TranslationMoment.services, Core.palReturn, hbit]
  | translate | peek | setRegisters => rfl

theorem miss_classification (hstart : build itb dtb = .ok start.translation)
    (hrun : start.TranslationRun past c) (ht : c.stepTranslation event = .ok t) :
    MissesClassified past ⟨c, event⟩ t where
  pending := pendingMiss_eq_firstMiss (pending_build hstart) hrun
  kind va kind hanswer := by
    have hwaits : c.translation.dtb.pending.isSome = true ↔ Waits .data past := by
      rw [← isSome_firstMiss, ← pendingMiss_eq_firstMiss (pending_build hstart) hrun]
      rfl
    rw [kind_of_answer hanswer]
    exact if_congr hwaits rfl rfl
  missed va access mode iprs hevent := by
    cases hevent
    rw [misses_translate_iff, resolve_eq_none_iff, TranslationBuffer.lookup_eq_none_iff]
  answered answer hanswer hno := eq_of_answered ht hanswer hno
  spared s hspares := by
    rw [pendingMiss_step ht, not_services_of_spares hspares, not_misses_of_spares hspares,
      Option.or_none, if_neg Bool.false_ne_true]

def missedRead (va : Word) : TranslationEvent := .translate va .read .kernel .zero

theorem second_miss_double :
    ∃ start past c t, Core.ofConfig kernelConfig MemoryPort.sample = .ok start ∧
      start.TranslationRun past c ∧ past.map (·.event) =
        [missedRead 0x2000, .serve .data .invalidateProcess, .serve .instruction .invalidateAll,
          .setRegisters { InternalRegisters.zero with dtbAsn := 1 }] ∧
      c.stepTranslation (missedRead 0x4000) = .ok t ∧
      MissesClassified past ⟨c, missedRead 0x4000⟩ t ∧
      (TranslationMoment.mk c (missedRead 0x4000)).answer =
        some (.error (.dtbMiss 0x4000 .double)) ∧
      c.pendingMiss .data = some 0x2000 := by
  have hcore : Core.ofConfig kernelConfig MemoryPort.sample = .ok _ := rfl
  have hrun (start : Core MemoryPort) : start.TranslationRun ([] ++ [⟨_, missedRead 0x2000⟩]
      ++ [⟨_, .serve .data .invalidateProcess⟩] ++ [⟨_, .serve .instruction .invalidateAll⟩]
      ++ [⟨_, .setRegisters { InternalRegisters.zero with dtbAsn := 1 }⟩]) _ :=
    .snoc (.snoc (.snoc (.snoc .nil rfl) rfl) rfl) rfl
  exact ⟨_, _, _, _, hcore, hrun _, rfl, rfl,
    miss_classification (Core.fresh_ofConfig hcore).translation (hrun _) rfl, rfl, rfl⟩

end EV6
