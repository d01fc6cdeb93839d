import EV6.Core.Privileged
import EV6.Proofs.Core.Lock
import EV6.Proofs.Mbox.Intact
import EV6.Proofs.Translation.Physical

namespace EV6

open Step Outcome Address

namespace Config

structure Sized (c : Config) : Prop where
  itb : 0 < c.memory.itbSize
  dtb : 0 < c.memory.dtbSize
  storeQueue : 0 < c.mbox.storeQueue

theorem sized_of_validate {c : Config} (h : c.validate = .ok ()) : c.Sized := by
  obtain ⟨_, -, h⟩ := ConfigFailure.bind_eq_ok h
  obtain ⟨_, -, h⟩ := ConfigFailure.bind_eq_ok h
  obtain ⟨_, -, h⟩ := ConfigFailure.bind_eq_ok h
  obtain ⟨-, h⟩ := ConfigFailure.require_then h
  obtain ⟨-, h⟩ := ConfigFailure.require_then h
  obtain ⟨hitb, h⟩ := ConfigFailure.require_then h
  obtain ⟨hdtb, h⟩ := ConfigFailure.require_then h
  obtain ⟨-, h⟩ := ConfigFailure.require_then h
  obtain ⟨hstores, -⟩ := ConfigFailure.require_then h
  exact ⟨Nat.pos_of_ne_zero (bne_iff_ne.mp hitb), Nat.pos_of_ne_zero (bne_iff_ne.mp hdtb),
    Nat.pos_of_ne_zero (bne_iff_ne.mp hstores)⟩

end Config

namespace Core

variable {π : Type} {ok : π → Prop} {config : Config} {c : Core π} {m : Mbox π} {B : Prop}

structure Intact (ok : π → Prop) (config : Config) (c : Core π) : Prop where
  mbox : c.mbox.Intact ok config
  translation : c.translation.Intact
  palBase : c.iprs.palBase.toNat ≤ palBaseMask.toNat

structure WithBox (ok : π → Prop) (config : Config) (m : Mbox π) (c : Core π) : Prop
    extends Intact ok config c where
  box : c.mbox = m

namespace Intact

theorem ofConfig {port : π} (hport : ok port) (h : Core.ofConfig config port = .ok c) :
    config.Valid ∧ c.Intact ok config := by
  have hfresh := fresh_ofConfig h
  have hsized := Config.sized_of_validate hfresh.valid
  refine ⟨Config.valid_of_validate hfresh.valid,
    Mbox.Intact.ofConfig hport hsized.storeQueue hfresh.mbox,
    TranslationUnit.intact_build hsized.itb hsized.dtb hfresh.translation, ?_⟩
  rw [hfresh.palBase]
  exact Nat.zero_le _

theorem count (h : c.Intact ok config) (f : Statistics → Statistics) :
    (c.count f).Intact ok config := ⟨h.mbox, h.translation, h.palBase⟩

theorem withMbox (h : c.Intact ok config) {mbox : Mbox π} (hmbox : mbox.Intact ok config) :
    { c with mbox }.Intact ok config := ⟨hmbox, h.translation, h.palBase⟩

theorem poll (h : c.Intact ok config) (pending : List Instruction) :
    (c.poll pending).2.Intact ok config := by
  refine ⟨h.mbox.poll pending, h.translation, ?_⟩
  have hbase : (c.iprs.tick 1).palBase = c.iprs.palBase := by
    unfold InternalRegisters.tick
    split <;> rfl
  exact Nat.le_trans (Nat.le_of_eq (congrArg BitVec.toNat hbase)) h.palBase

theorem writeIndex (h : c.Intact ok config) (index : Nat) (value : Word) :
    (c.writeIndex index value).Intact ok config := by
  unfold Core.writeIndex
  split
  · rename_i r _
    obtain ⟨hitb, hdtb⟩ := h.translation
    cases r with
    | itbEntry => exact ⟨h.mbox, ⟨hitb.insert _ _ _, hdtb⟩, h.palBase⟩
    | itbInvalidateProcess => exact ⟨h.mbox, ⟨hitb.dropWhere _, hdtb⟩, h.palBase⟩
    | itbInvalidateAll => exact ⟨h.mbox, ⟨hitb.invalidateAll, hdtb⟩, h.palBase⟩
    | itbInvalidateSingle => exact ⟨h.mbox, ⟨hitb.dropWhere _, hdtb⟩, h.palBase⟩
    | dtbEntry => exact ⟨h.mbox, ⟨hitb, hdtb.insert _ _ _⟩, h.palBase⟩
    | dtbInvalidateProcess => exact ⟨h.mbox, ⟨hitb, hdtb.dropWhere _⟩, h.palBase⟩
    | dtbInvalidateAll => exact ⟨h.mbox, ⟨hitb, hdtb.invalidateAll⟩, h.palBase⟩
    | dtbInvalidateSingle => exact ⟨h.mbox, ⟨hitb, hdtb.dropWhere _⟩, h.palBase⟩
    | palBase =>
      exact ⟨h.mbox, h.translation, Nat.le_trans (Nat.le_of_eq (BitVec.toNat_and _ _))
        Nat.and_le_right⟩
    | _ => exact ⟨h.mbox, h.translation, h.palBase⟩
  · exact h

end Intact

theorem upholds_onMbox {ε α : Type} {P : α → Prop} {x : Step (Mbox π) ε α}
    (hx : Upholds (Mbox.Intact ok config) B P x) : Upholds (Intact ok config) B P (onMbox x) :=
  hx.onPart (fun _ hc => hc.mbox) fun _ _ hc hm => hc.withMbox hm

theorem upholds_onMemory {ε α : Type} {P : α → Prop} {x : Step (MemoryHierarchy π) ε α}
    (hx : Upholds (MemoryHierarchy.Intact ok config) B P x) :
    Upholds (Intact ok config) B P (onMemory x) := upholds_onMbox (Mbox.upholds_onMemory hx)

def pollChecked (c : Core π) (pending : List Instruction) :
    Except Breach (Mbox.Delivery × Core π) := do
  let (d, mbox) ← c.mbox.pollChecked pending
  return (d, { c.count (fun s => { s with polls := s.polls + 1 }) with iprs := c.iprs.tick 1, mbox })

theorem Intact.pollChecked_eq (h : c.Intact ok config) (hclock : c.mbox.polls + 1 < Machine.limit)
    (pending : List Instruction) : c.pollChecked pending = .ok (c.poll pending) := by
  rw [pollChecked, h.mbox.pollChecked_eq hclock]
  rfl

theorem intact_count (ok : π → Prop) (config : Config) (c : Core π) (f : Statistics → Statistics) :
    Intact ok config (c.count f) = Intact ok config c := by
  refine propext ⟨fun h => ⟨h.mbox, h.translation, h.palBase⟩, fun h => h.count f⟩

theorem WithBox.countWhen (h : WithBox ok config m c) (b : Bool) (f : Statistics → Statistics) :
    WithBox ok config m (countWhen b f c) := by
  cases b with
  | false => exact h
  | true => exact ⟨h.toIntact.count f, h.box⟩

theorem upholds_raiseData {α : Type} {P : α → Prop} (fault : Fault) (opcode : Opcode)
    (write : Bool) : Upholds (WithBox ok config m) B P (raiseData fault opcode write) := by
  refine (upholds_modify fun c hc => ⟨⟨hc.mbox, hc.translation, ?_⟩, hc.box⟩).bind fun _ _ =>
    upholds_throw fault
  have hbase : (c.iprs.latch fault opcode write).palBase = c.iprs.palBase := by
    unfold InternalRegisters.latch
    split <;> rfl
  exact Nat.le_trans (Nat.le_of_eq (congrArg BitVec.toNat hbase)) hc.palBase

theorem upholds_checkAlignment (opcode : Opcode) (va : Word) (width : Width) (write : Bool) :
    Upholds (WithBox ok config m) B (fun _ => isAligned va width = true)
      (checkAlignment opcode va width write) := by
  unfold checkAlignment
  split
  · exact upholds_pure ‹_›
  · exact upholds_raiseData _ _ _

theorem upholds_translate {ε : Type} (va : Word) (access : AccessKind) :
    Upholds (WithBox ok config m) B (fun r => ∀ pa, r = .ok pa → Translates va pa)
      (translate va access : Step (Core π) ε _) :=
  upholds_modifyGet fun c hc => ⟨⟨⟨hc.mbox, hc.translation.translate va access c.mode c.iprs,
    hc.palBase⟩, hc.box⟩, fun _ => hc.translation.translates⟩

theorem upholds_translateData (opcode : Opcode) (va : Word) (access : AccessKind) :
    Upholds (WithBox ok config m) B (Translates va) (translateData opcode va access) := by
  unfold translateData
  refine (upholds_translate va access).bind fun r hr => ?_
  cases r with
  | ok pa => exact upholds_pure (hr pa rfl)
  | error fault =>
    exact (upholds_modify fun c hc => hc.countWhen _ _).bind fun _ _ => upholds_raiseData _ _ _

theorem upholds_translateFetch (pc : Word) :
    Upholds (Intact ok config) B (fun _ => True) (translateFetch pc : CoreStep π Word) := by
  intro c hc
  refine Ends.mono (?_ : Ends (fun _ t => WithBox ok config c.mbox t ∧ True)
    (fun _ t => WithBox ok config c.mbox t) B _) (fun _ _ h => ⟨h.1.toIntact, trivial⟩)
    (fun _ _ h => h.toIntact) id
  refine (?_ : Upholds (WithBox ok config c.mbox) B (fun _ => True) (translateFetch pc)) c ⟨hc, rfl⟩
  refine upholds_get.bind fun c hc => ?_
  split
  · exact upholds_pure trivial
  · refine (upholds_translate pc .fetch).bind fun r _ => ?_
    cases r with
    | ok pa => exact upholds_pure trivial
    | error fault =>
      exact (upholds_modify fun c hc => hc.countWhen _ _).bind fun _ _ => upholds_throw _

variable [BlockDevice π] (hd : SizedDevice ok) (hv : config.Valid)

include hd hv

theorem upholds_fetch (pc : Word) :
    Upholds (Intact ok config) B (fun _ => True) (fetch pc : CoreStep π Longword) := by
  refine (upholds_translateFetch pc).bind fun pa _ => upholds_get.bind fun c _ => ?_
  refine ((upholds_onMemory (MemoryHierarchy.upholds_fetch hd hv pa)).mapError _).bind fun r _ => ?_
  refine (upholds_modify fun c hc => ?_).bind fun _ _ => upholds_pure trivial
  exact (countFetch_same _ _ c (intact_count ok config)).mpr hc

theorem issueLoad_intact (hc : c.Intact ok config) (i : Instruction) (va : Word) {pa : Word}
    {width : Width} (ha : pa.toNat % width.bytes = 0)
    (hend : pa.toNat + width.bytes < Machine.limit) :
    (issueLoad i va pa width c).Ends (fun _ t => t.Intact ok config)
      (fun _ t => t.Intact ok config) (¬c.mbox.CanLoad config) := by
  unfold issueLoad
  refine ends_bind (P := fun _ t => t.Intact ok config) ?_ fun r t ht => ?_
  · refine ends_mapError ((ends_onPart (Mbox.issueLoad_intact hd hv hc.mbox i va ha hend)).mono
      ?_ ?_ id)
    · rintro _ _ ⟨m, hm, rfl⟩
      exact hc.withMbox hm
    · rintro _ _ ⟨m, hm, rfl⟩
      exact hc.withMbox hm
  · refine ((?_ : Upholds (Intact ok config) _ (fun _ => True) _) t ht).mono (fun _ _ h => h.1)
      (fun _ _ h => h) id
    refine (upholds_modify fun c hc => hc.count _).bind fun _ _ => ?_
    refine (upholds_modify fun c hc => ?_).bind fun _ _ =>
      (upholds_modify fun c hc => ?_).bind fun _ _ => upholds_pure trivial
    · exact (countWhen_same _ _ c (intact_count ok config)).mpr hc
    · exact (countAccess_same _ c (intact_count ok config)).mpr hc

theorem upholds_retireStore (slot : Nat) :
    Upholds (Intact ok config) True (fun _ => True) (retireStore slot : CoreStep π Unit) := by
  refine ((upholds_onMbox (Mbox.upholds_retireStore hd hv slot)).mapError _).bind fun r _ => ?_
  refine (upholds_modify fun c hc => hc.count _).bind fun _ _ => upholds_modify fun c hc => ?_
  exact (countAccess_same _ c (intact_count ok config)).mpr hc

omit hv

theorem upholds_evictBlock (va : Word) :
    Upholds (Intact ok config) B (fun _ => True) (evictBlock va : CoreStep π Unit) := by
  refine upholds_get.bind fun c _ => ?_
  split
  · exact upholds_pure trivial
  · exact ((upholds_onMemory (MemoryHierarchy.upholds_evict hd _)).mapError _).bind fun _ _ =>
      upholds_pure trivial

theorem upholds_probeInvalidate (pa : Word) :
    Upholds (Intact ok config) B (fun _ => True)
      (probeInvalidate pa : Step (Core π) BusError ProbeResult) := by
  refine (upholds_onMemory (MemoryHierarchy.upholds_probeInvalidate hd pa)).bind fun r _ => ?_
  refine (upholds_modify fun c hc => ?_).bind fun _ _ => ?_
  · exact (countWhen_same _ _ c (intact_count ok config)).mpr hc
  · refine (upholds_modify fun c hc => ?_).bind fun _ _ => upholds_pure trivial
    split
    · exact ⟨hc.mbox, hc.translation, hc.palBase⟩
    · exact hc

theorem upholds_probeShare (pa : Word) :
    Upholds (Intact ok config) B (fun _ => True)
      (probeShare pa : Step (Core π) BusError ProbeResult) := by
  refine (upholds_onMemory (MemoryHierarchy.upholds_probeShare hd pa)).bind fun r _ => ?_
  refine (upholds_modify fun c hc => ?_).bind fun _ _ => upholds_pure trivial
  exact (countWhen_same _ _ c (intact_count ok config)).mpr hc

end Core

end EV6
