import EV6.Core.Privileged
import EV6.Proofs.Translation.Requests

namespace EV6

inductive TranslationStream where
  | instruction
  | data
  deriving DecidableEq, Repr

def AccessKind.stream (access : AccessKind) : TranslationStream :=
  if access.isInstruction then .instruction else .data

structure TranslationBuffer.SameEntries (t t' : TranslationBuffer) : Prop where
  slots : t'.slots = t.slots
  next : t'.next = t.next

namespace TranslationUnit

variable {u v : TranslationUnit} {va pa : Word} {access : AccessKind} {mode : ProcessorMode}
  {iprs : InternalRegisters}

def buffer (u : TranslationUnit) : TranslationStream → TranslationBuffer
  | .instruction => u.itb
  | .data => u.dtb

def withBuffer (u : TranslationUnit) (t : TranslationBuffer) : TranslationStream → TranslationUnit
  | .instruction => { u with itb := t }
  | .data => { u with dtb := t }

@[simp] theorem buffer_withBuffer_self (u : TranslationUnit) (t : TranslationBuffer)
    (s : TranslationStream) : (u.withBuffer t s).buffer s = t := by
  cases s <;> rfl

theorem buffer_withBuffer_of_ne (t : TranslationBuffer) {s r : TranslationStream} (h : s ≠ r) :
    (u.withBuffer t s).buffer r = u.buffer r := by
  cases s <;> cases r <;> first | rfl | exact absurd rfl h

theorem stream_eq (u : TranslationUnit) (access : AccessKind) :
    u.stream access = u.buffer access.stream := by
  cases access <;> rfl

theorem recordMiss_eq (u : TranslationUnit) (va : Word) (access : AccessKind) :
    u.recordMiss va access =
      u.withBuffer ((u.buffer access.stream).recordMiss va) access.stream := by
  cases access <;> rfl

theorem translate_cases (u : TranslationUnit) (va : Word) (access : AccessKind)
    (mode : ProcessorMode) (iprs : InternalRegisters) :
    (∃ answer, u.resolve va access mode iprs = some answer ∧
      u.translate va access mode iprs = (answer, u)) ∨
    (u.resolve va access mode iprs = none ∧ u.translate va access mode iprs =
      (.error (u.missFault va access), u.recordMiss va access)) := by
  unfold translate
  cases hr : u.resolve va access mode iprs with
  | some answer => exact .inl ⟨answer, rfl, rfl⟩
  | none => exact .inr ⟨rfl, rfl⟩

theorem sameEntries_translate (u : TranslationUnit) (va : Word) (access : AccessKind)
    (mode : ProcessorMode) (iprs : InternalRegisters) (s : TranslationStream) :
    (u.buffer s).SameEntries ((u.translate va access mode iprs).2.buffer s) := by
  rcases u.translate_cases va access mode iprs with ⟨answer, -, ht⟩ | ⟨-, ht⟩
  · rw [ht]
    exact ⟨rfl, rfl⟩
  · rw [ht, recordMiss_eq]
    by_cases hs : access.stream = s
    · rw [← hs, buffer_withBuffer_self]
      exact ⟨rfl, rfl⟩
    · rw [buffer_withBuffer_of_ne _ hs]
      exact ⟨rfl, rfl⟩

theorem resolve_eq_none_iff : u.resolve va access mode iprs = none ↔
    isCanonical va = true ∧ kernelSuperpage va access mode iprs = none ∧
      (u.buffer access.stream).lookup va (spaceOf access iprs) = none := by
  unfold resolve
  split
  · simp_all
  · split <;> simp_all [stream_eq]

end TranslationUnit

inductive TranslationEvent where
  | translate (va : Word) (access : AccessKind) (mode : ProcessorMode) (iprs : InternalRegisters)
  | peek (va : Word) (access : AccessKind) (mode : ProcessorMode) (iprs : InternalRegisters)
  | serve (stream : TranslationStream) (request : TranslationBuffer.Request)
  | setRegisters (iprs : InternalRegisters)
  | palReturn (target : Word)

structure TranslationMoment (π : Type) where
  before : Core π
  event : TranslationEvent

def TranslationMoment.answer {π : Type} (m : TranslationMoment π) : Option (Except Fault Word) :=
  match m.event with
  | .translate va access mode iprs =>
    some (m.before.translation.translate va access mode iprs).1
  | _ => none

namespace Core

variable {π : Type}

def withTranslation (c : Core π) (translation : TranslationUnit) : Core π := { c with translation }

def stepTranslation (c : Core π) : TranslationEvent → Except Breach (Core π)
  | .translate va access mode iprs =>
    .ok (c.withTranslation (c.translation.translate va access mode iprs).2)
  | .peek _ _ _ _ => .ok c
  | .serve stream request =>
    ((c.translation.buffer stream).serve request).map fun t =>
      c.withTranslation (c.translation.withBuffer t stream)
  | .setRegisters iprs => .ok (c.withIprs iprs)
  | .palReturn target => .ok (c.palReturn target)

inductive TranslationRun (start : Core π) : List (TranslationMoment π) → Core π → Prop
  | nil : TranslationRun start [] start
  | snoc {past : List (TranslationMoment π)} {c t : Core π} {event : TranslationEvent}
      (hrun : TranslationRun start past c) (ht : c.stepTranslation event = .ok t) :
      TranslationRun start (past ++ [⟨c, event⟩]) t

variable {start c t : Core π} {past : List (TranslationMoment π)} {event : TranslationEvent}
  {s : TranslationStream} {i : Nat} {e : PageEntry} {itb dtb : Nat}

theorem stepTranslation_serve {stream : TranslationStream}
    {request : TranslationBuffer.Request} (h : c.stepTranslation (.serve stream request) = .ok t) :
    ∃ b, (c.translation.buffer stream).serve request = .ok b ∧
      t = c.withTranslation (c.translation.withBuffer b stream) := by
  simp only [stepTranslation] at h
  cases hb : (c.translation.buffer stream).serve request with
  | error e =>
    rw [hb] at h
    cases h
  | ok b =>
    rw [hb] at h
    cases h
    exact ⟨b, rfl, rfl⟩

theorem stepTranslation_load (h : (c.translation.buffer s).capacity ≠ 0) (l : PageLoad) :
    c.stepTranslation (.serve s (.load l)) = .ok (c.withTranslation
      (c.translation.withBuffer ((c.translation.buffer s).insert l.va l.pte l.asn) s)) := by
  rw [stepTranslation, TranslationBuffer.serve_load.mpr ⟨h, rfl⟩]
  rfl

def moveEvent (c : Core π) (register : InternalRegister) (value : Word) : TranslationEvent :=
  match register with
  | .itbEntry => .serve .instruction (.load ⟨c.iprs.itbTag, value, c.iprs.itbAsn⟩)
  | .itbInvalidateProcess => .serve .instruction .invalidateProcess
  | .itbInvalidateAll => .serve .instruction .invalidateAll
  | .itbInvalidateSingle => .serve .instruction (.invalidateSingle value c.iprs.itbAsn)
  | .dtbEntry => .serve .data (.load ⟨c.iprs.dtbTag, value, c.iprs.dtbAsn⟩)
  | .dtbInvalidateProcess => .serve .data .invalidateProcess
  | .dtbInvalidateAll => .serve .data .invalidateAll
  | .dtbInvalidateSingle => .serve .data (.invalidateSingle value c.iprs.dtbAsn)
  | register => .setRegisters (c.writeRegister register value).iprs

theorem stepTranslation_move (h : ∀ s, (c.translation.buffer s).capacity ≠ 0)
    {r : InternalRegister} (hr : r ≠ .currentMode) (value : Word) :
    c.stepTranslation (c.moveEvent r value) = .ok (c.writeRegister r value) := by
  cases r with
  | currentMode => exact absurd rfl hr
  | itbEntry => exact stepTranslation_load (h .instruction) _
  | dtbEntry => exact stepTranslation_load (h .data) _
  | _ => rfl

theorem TranslationRun.move (hrun : start.TranslationRun past c)
    (h : ∀ s, (c.translation.buffer s).capacity ≠ 0) {r : InternalRegister}
    (hr : r ≠ .currentMode) (value : Word) :
    start.TranslationRun (past ++ [⟨c, c.moveEvent r value⟩]) (c.writeRegister r value) :=
  hrun.snoc (stepTranslation_move h hr value)

theorem sameEntries_palReturn (c : Core π) (target : Word) (s : TranslationStream) :
    (c.translation.buffer s).SameEntries ((c.palReturn target).translation.buffer s) := by
  unfold palReturn
  split
  · exact ⟨rfl, rfl⟩
  · cases s <;> exact ⟨rfl, rfl⟩

def LoadedIn (past : List (TranslationMoment π)) (s : TranslationStream) (l : PageLoad) : Prop :=
  ∃ m ∈ past, m.event = .serve s (.load l)

theorem holds_step (ht : c.stepTranslation event = .ok t)
    (he : (t.translation.buffer s).Holds i e) :
    (c.translation.buffer s).Holds i e ∨ ∃ l, event = .serve s (.load l) ∧ e = l.entry := by
  -- Only a request changes entries; misses that are recorded or cleared leave them where they are.
  have hsame {t' : Core π} (h : (c.translation.buffer s).SameEntries (t'.translation.buffer s))
      (he : (t'.translation.buffer s).Holds i e) : (c.translation.buffer s).Holds i e := by
    rwa [TranslationBuffer.Holds, h.slots] at he
  cases event with
  | translate va access mode iprs =>
    cases ht
    exact .inl (hsame (c.translation.sameEntries_translate va access mode iprs s) he)
  | peek va access mode iprs =>
    cases ht
    exact .inl he
  | setRegisters iprs =>
    cases ht
    exact .inl he
  | palReturn target =>
    cases ht
    exact .inl (hsame (c.sameEntries_palReturn target s) he)
  | serve stream request =>
    obtain ⟨b, hb, rfl⟩ := stepTranslation_serve ht
    by_cases hs : stream = s
    · subst hs
      rw [withTranslation, TranslationUnit.buffer_withBuffer_self] at he
      rcases TranslationBuffer.holds_serve hb he with he | ⟨l, rfl, rfl⟩
      · exact .inl he
      · exact .inr ⟨l, rfl, rfl⟩
    · rw [withTranslation, TranslationUnit.buffer_withBuffer_of_ne _ hs] at he
      exact .inl he

theorem TranslationRun.loaded (hstart : TranslationUnit.build itb dtb = .ok start.translation)
    (hrun : start.TranslationRun past c) (he : (c.translation.buffer s).Holds i e) :
    ∃ l, LoadedIn past s l ∧ e = l.entry := by
  induction hrun with
  | nil =>
    rw [TranslationUnit.build_eq hstart] at he
    cases s <;> exact absurd he (TranslationBuffer.not_holds_ofSize _)
  | snoc hrun ht ih =>
    rcases holds_step ht he with he | ⟨l, hl, rfl⟩
    · obtain ⟨l, ⟨m, hm, hl⟩, rfl⟩ := ih he
      exact ⟨l, ⟨m, List.mem_append_left _ hm, hl⟩, rfl⟩
    · exact ⟨l, ⟨_, List.mem_append_right _ (List.mem_singleton_self _), hl⟩, rfl⟩

end Core

end EV6
