import EV6.Proofs.Cache.Fetch
import EV6.Proofs.Cache.Sharing

namespace EV6

namespace MemoryHierarchy

open Outcome

inductive Call where
  | read (addr : Word) (length : Nat)
  | write (addr : Word) (data : List Byte)
  | fetch (addr : Word)
  | flush
  | evict (addr : Word)
  | probeInvalidate (addr : Word)
  | probeShare (addr : Word)
  deriving DecidableEq, Repr

variable {π : Type} {h h' : MemoryHierarchy π} {content : π → Memory} {ok : π → Prop}
  {answers : Word → Nat → Prop} {c : Call}

namespace Call

def run [BlockDevice π] : Call → MemoryStep π (Option (List Byte))
  | read addr length => do return some (← MemoryHierarchy.read addr length).1
  | write addr data => do
    let _ ← MemoryHierarchy.write addr data
    return none
  | fetch addr => do
    let _ ← MemoryHierarchy.fetch addr
    return none
  | flush => do
    let _ ← MemoryHierarchy.flush
    return none
  | evict addr => do
    let _ ← MemoryHierarchy.evict addr
    return none
  | probeInvalidate addr => do
    let _ ← MemoryHierarchy.probeInvalidate addr
    return none
  | probeShare addr => do
    let _ ← MemoryHierarchy.probeShare addr
    return none

def apply : Call → Memory → Memory
  | write addr data, m => m.write addr.toNat data
  | _, m => m

def answer : Call → Memory → Option (List Byte)
  | read addr length, m => some (m.bytes addr.toNat length)
  | _, _ => none

def Fits (lineBytes : Nat) : Call → Prop
  | read addr length => addr.toNat % lineBytes + length ≤ lineBytes
  | write addr data => addr.toNat % lineBytes + data.length ≤ lineBytes
  | _ => True

def Reaches (answers : Word → Nat → Prop) (lineBytes : Nat) : Call → Prop
  | read addr length => answers (Address.lineBase addr lineBytes) lineBytes ∧ answers addr length
  | write addr data =>
    answers (Address.lineBase addr lineBytes) lineBytes ∧ answers addr data.length
  | fetch addr =>
    answers (Address.lineBase (fetchAddr addr) lineBytes) lineBytes ∧ answers (fetchAddr addr) 4
  | _ => True

instance (lineBytes : Nat) : (c : Call) → Decidable (c.Fits lineBytes)
  | read _ _ => inferInstanceAs (Decidable (_ ≤ _))
  | write _ _ => inferInstanceAs (Decidable (_ ≤ _))
  | fetch _ => inferInstanceAs (Decidable True)
  | flush => inferInstanceAs (Decidable True)
  | evict _ => inferInstanceAs (Decidable True)
  | probeInvalidate _ => inferInstanceAs (Decidable True)
  | probeShare _ => inferInstanceAs (Decidable True)

instance [∀ addr length, Decidable (answers addr length)] (lineBytes : Nat) :
    (c : Call) → Decidable (c.Reaches answers lineBytes)
  | read _ _ => inferInstanceAs (Decidable (_ ∧ _))
  | write _ _ => inferInstanceAs (Decidable (_ ∧ _))
  | fetch _ => inferInstanceAs (Decidable (_ ∧ _))
  | flush => inferInstanceAs (Decidable True)
  | evict _ => inferInstanceAs (Decidable True)
  | probeInvalidate _ => inferInstanceAs (Decidable True)
  | probeShare _ => inferInstanceAs (Decidable True)

def traffic [BlockDevice π] (c : Call) (h : MemoryHierarchy π) : Traffic :=
  match c with
  | read addr _ => h.accessTraffic addr
  | write addr _ => h.accessTraffic addr
  | fetch _ => .silent
  | flush => h.takenTraffic h.allVictims
  | evict addr => h.takenTraffic (h.victimsAt addr)
  | probeInvalidate addr => h.takenTraffic (h.victimsAt addr)
  | probeShare addr => h.sharedTraffic addr

end Call

structure Applies (content : π → Memory) (ok : π → Prop) (c : Call) (answer : Option (List Byte))
    (h h' : MemoryHierarchy π) : Prop where
  sound : h'.Sound ok
  alike : h.Alike h'
  newestEq : newest content h' = c.apply (newest content h)
  answerEq : answer = c.answer (newest content h)
  coherent : Coherent content h → Coherent content h'
  held : ∀ n, h'.copy n = none ↔ h.copy n = none
  port : content h'.port = content h.port ∨ content h'.port = c.apply (content h.port)

theorem Applies.of_idle (hs : h.Sound ok) {a : Option (List Byte)}
    (hc : c.apply (newest content h) = newest content h) (ha : a = c.answer (newest content h)) :
    Applies content ok c a h h :=
  ⟨hs, .refl h, hc.symm, ha, id, fun _ => Iff.rfl, .inl rfl⟩

theorem Applies.answered {a : Option (List Byte)} (ha : Applies content ok c a h h')
    (hans : h.Answered answers) : h'.Answered answers := by
  intro n l hl
  have hheld : h.copy n ≠ none := by
    rw [Ne, ← ha.held, hl]
    exact Option.some_ne_none l
  obtain ⟨k, hk⟩ := Option.ne_none_iff_exists'.mp hheld
  rw [ha.alike.lineBytes]
  exact hans n k hk

variable [BlockDevice π]

theorem run_idle {α : Type} {x : MemoryStep π α} (hrun : c.run = x >>= fun _ => pure none)
    (happly : ∀ m, c.apply m = m) (hanswer : ∀ m, c.answer m = none)
    (hx : (x h).Ends (fun _ h' => Settles content ok (c.traffic h) h h')
      (fun _ h' => Moves content ok (c.traffic h) h h' ∧ ¬h.Answered answers) False) :
    (c.run h).Ends
      (fun a h' => ∃ h₁, Settles content ok (c.traffic h) h h₁ ∧ Applies content ok c a h₁ h')
      (fun _ h' => Moves content ok (c.traffic h) h h' ∧
        ¬(c.Reaches answers h.lineBytes ∧ h.Answered answers))
      (¬c.Fits h.lineBytes) := by
  rw [hrun]
  refine Step.ends_bind (hx.mono (fun _ _ hq => hq) ?_ False.elim) ?_
  · rintro _ h' ⟨hm, hans⟩
    exact ⟨hm, fun ha => hans ha.2⟩
  · intro _ h' hm
    exact ⟨h', hm, .of_idle hm.sound (happly _) (hanswer _).symm⟩

theorem run_ends (hd : FlatDevice content ok answers) (hs : h.Sound ok) (c : Call) :
    (c.run h).Ends
      (fun a h' => ∃ h₁, Settles content ok (c.traffic h) h h₁ ∧ Applies content ok c a h₁ h')
      (fun _ h' => Moves content ok (c.traffic h) h h' ∧
        ¬(c.Reaches answers h.lineBytes ∧ h.Answered answers))
      (¬c.Fits h.lineBytes) := by
  cases c with
  | read addr length =>
    refine Step.ends_bind ((read_ends hd hs addr length).mono (fun _ _ hq => hq) ?_
      Nat.not_le_of_lt) ?_
    · rintro _ h' ⟨hm, hans⟩
      exact ⟨hm, fun ha => hans ⟨ha.1.1, ha.1.2, ha.2⟩⟩
    · rintro r h' ⟨hm, ha⟩
      exact ⟨h', hm, .of_idle hm.sound rfl (congrArg some ha)⟩
  | write addr data =>
    refine Step.ends_bind ((write_ends hd hs addr data).mono (fun _ _ hq => hq) ?_
      Nat.not_le_of_lt) ?_
    · rintro _ h' ⟨hm, hans⟩
      exact ⟨hm, fun ha => hans ⟨ha.1.1, ha.1.2, ha.2⟩⟩
    · rintro _ h' ⟨h₁, hm, hw⟩
      exact ⟨h₁, hm, hw.sound, hw.alike, hw.newest, rfl, hw.coherent, hw.held, hw.port⟩
  | fetch addr =>
    refine Step.ends_bind ((fetch_ends hd hs addr).mono (fun _ _ hq => hq) ?_ False.elim) ?_
    · rintro _ h' ⟨hm, hans⟩
      exact ⟨hm, fun ha => hans ha.1⟩
    · intro _ h' hm
      exact ⟨h', hm, .of_idle hm.sound rfl rfl⟩
  | flush =>
    exact run_idle rfl (fun _ => rfl) (fun _ => rfl)
      ((flush_ends hd hs).mono (fun _ _ hq => hq.1) (fun _ _ hq => hq) id)
  | evict addr => exact run_idle rfl (fun _ => rfl) (fun _ => rfl) (evict_ends hd hs addr)
  | probeInvalidate addr =>
    exact run_idle rfl (fun _ => rfl) (fun _ => rfl) (probeInvalidate_ends hd hs addr)
  | probeShare addr =>
    exact run_idle rfl (fun _ => rfl) (fun _ => rfl)
      ((probeShare_ends hd hs addr).mono (fun _ _ hq => hq.1) (fun _ _ hq => hq) id)

end MemoryHierarchy

end EV6
