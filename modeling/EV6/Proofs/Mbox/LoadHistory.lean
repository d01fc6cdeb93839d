import EV6.Proofs.Mbox.Intact
import Mathlib.Data.List.Nodup
/-!
Histories of the calls that the loads of a memory box feel, and what its load queue holds after
them: the loads that were told to wait and were neither delivered nor dropped since, each with what
it found.
-/

namespace EV6

open Step Outcome

namespace LoadQueue

variable {q : LoadQueue} {slot s : Nat} {e : LoadEntry}

def Apart (q : LoadQueue) : Prop :=
  ∀ s s' e e', q.get s = some e → q.get s' = some e' → e.seq = e'.seq → s = s'

theorem Apart.free (h : q.Apart) (slot : Nat) : (q.free slot).Apart := by
  intro s s' e e' hs hs'
  exact h s s' e e' (Mbox.get_of_get_free hs) (Mbox.get_of_get_free hs')

theorem modify_put (h : slot < q.slots.length) (e : LoadEntry) (f : LoadEntry → LoadEntry) :
    (q.put slot e).modify slot f = q.put slot (f e) := by
  simp only [modify, put, List.modify_eq_set, List.set_set, mk.injEq, and_true]
  simp [h]

theorem countP_isSome_eq (q : LoadQueue) :
    q.slots.countP Option.isSome =
      ((List.range q.slots.length).filter fun s => (q.get s).isSome).length := by
  have hslots : q.slots = (List.range q.slots.length).map q.get := by
    refine List.ext_getElem (by simp) ?_
    intro s hs _
    simp [get, hs]
  conv_lhs => rw [hslots, List.countP_map, List.countP_eq_length_filter]
  rfl

end LoadQueue

namespace Mbox

def deliveredSeqs (records answers : List Instruction) : List Nat :=
  ((records.zip answers).filter fun (r, a) => r.slot.isSome && a.slot.isNone).map (·.1.seq)

def Collects (polls : Nat) (records : List Instruction) (slot seq due : Nat) : Prop :=
  due ≤ polls ∧ ∃ r ∈ records, r.seq = seq ∧ r.slot = some slot

section Poll

variable {q q' : LoadQueue} {polls slot seq due : Nat} {i j : Instruction}
  {records : List Instruction} {e : LoadEntry}

theorem collects_cons : Collects polls (i :: records) slot seq due ↔
    (due ≤ polls ∧ i.seq = seq ∧ i.slot = some slot) ∨ Collects polls records slot seq due := by
  simp only [Collects, List.mem_cons]
  constructor
  · rintro ⟨hdue, r, rfl | hr, hrest⟩
    · exact .inl ⟨hdue, hrest⟩
    · exact .inr ⟨hdue, r, hr, hrest⟩
  · rintro (⟨hdue, hrest⟩ | ⟨hdue, r, hr, hrest⟩)
    · exact ⟨hdue, i, .inl rfl, hrest⟩
    · exact ⟨hdue, r, .inr hr, hrest⟩

theorem deliver_eq_none (h : deliver polls q i = none) (he : q.get slot = some e)
    (hi : e.readyAt ≤ polls ∧ i.seq = e.seq ∧ i.slot = some slot) : False := by
  obtain ⟨hready, hseq, hslot⟩ := hi
  obtain ⟨q', hdeliver⟩ := Delivers.deliver ⟨slot, e, hslot, he, hseq.symm, hready, rfl⟩
  rw [h] at hdeliver
  cases hdeliver

theorem deliver_frees (h : deliver polls q i = some (j, q')) :
    ∃ slot e, i.slot = some slot ∧ q.get slot = some e ∧ e.seq = i.seq ∧ e.readyAt ≤ polls ∧
      q' = q.free slot := by
  obtain ⟨⟨slot, e, hslot, he, hseq, hready, -⟩, _, hslot', hq'⟩ := deliver_eq_some h
  obtain rfl := Option.some.inj (hslot.symm.trans hslot')
  exact ⟨slot, e, hslot, he, hseq, hready, hq'⟩

theorem get_deliverAll_iff :
    (deliverAll polls q records).loads.get slot = some e ↔
      q.get slot = some e ∧ ¬Collects polls records slot e.seq e.readyAt := by
  induction records generalizing q with
  | nil => simp [deliverAll, Collects]
  | cons i records ih =>
    rw [deliverAll, collects_cons]
    cases hdeliver : deliver polls q i with
    | none =>
      refine ih.trans (and_congr_right fun he => not_congr ⟨.inr, ?_⟩)
      rintro (hi | hr)
      · exact (deliver_eq_none hdeliver he hi).elim
      · exact hr
    | some r =>
      obtain ⟨s, e', hslot, he', hseq, hready, hq'⟩ := deliver_frees hdeliver
      simp only [hq', ih, LoadQueue.get_free]
      by_cases hs : s = slot
      · subst hs
        simp only [if_true, reduceCtorEq, false_and, false_iff, not_and, not_not]
        intro he
        obtain rfl := Option.some.inj (he'.symm.trans he)
        exact .inl ⟨hready, hseq.symm, hslot⟩
      · have hi : ¬(e.readyAt ≤ polls ∧ i.seq = e.seq ∧ i.slot = some slot) := by
          rintro ⟨-, -, h⟩
          exact hs (Option.some.inj (hslot.symm.trans h))
        simp only [if_neg hs, hi, false_or]

theorem deliveredSeqs_of_none (h : deliver polls q i = none) (records : List Instruction) :
    deliveredSeqs (i :: records) (deliverAll polls q (i :: records)).instructions =
      deliveredSeqs records (deliverAll polls q records).instructions := by
  rw [deliverAll, h]
  cases hslot : i.slot <;> simp [deliveredSeqs, hslot]

theorem deliveredSeqs_of_some (h : deliver polls q i = some (j, q')) (records : List Instruction) :
    deliveredSeqs (i :: records) (deliverAll polls q (i :: records)).instructions =
      i.seq :: deliveredSeqs records (deliverAll polls q' records).instructions := by
  obtain ⟨⟨slot, e, hslot, -, -, -, rfl⟩, -⟩ := deliver_eq_some h
  rw [deliverAll, h]
  simp [deliveredSeqs, hslot, Instruction.delivered]

theorem mem_deliveredSeqs :
    seq ∈ deliveredSeqs records (deliverAll polls q records).instructions ↔
      ∃ slot e, q.get slot = some e ∧ e.seq = seq ∧ Collects polls records slot seq e.readyAt := by
  induction records generalizing q with
  | nil => simp [deliveredSeqs, Collects]
  | cons i records ih =>
    simp only [collects_cons]
    cases hdeliver : deliver polls q i with
    | none =>
      rw [deliveredSeqs_of_none hdeliver, ih]
      constructor
      · rintro ⟨slot, e, he, hseq, hr⟩
        exact ⟨slot, e, he, hseq, .inr hr⟩
      · rintro ⟨slot, e, he, rfl, hi | hr⟩
        · exact (deliver_eq_none hdeliver he hi).elim
        · exact ⟨slot, e, he, rfl, hr⟩
    | some r =>
      rw [deliveredSeqs_of_some hdeliver, List.mem_cons, ih]
      obtain ⟨s, e', hslot, he', hseq', hready, hq'⟩ := deliver_frees hdeliver
      constructor
      · rintro (rfl | ⟨slot, e, he, hseq, hr⟩)
        · exact ⟨s, e', he', hseq', .inl ⟨hready, rfl, hslot⟩⟩
        · exact ⟨slot, e, get_of_get_free (hq' ▸ he), hseq, .inr hr⟩
      · rintro ⟨slot, e, he, hseq, ⟨-, hi, -⟩ | hr⟩
        · exact .inl hi.symm
        · by_cases hs : s = slot
          · subst hs
            obtain rfl := Option.some.inj (he'.symm.trans he)
            exact .inl (hseq.symm.trans hseq')
          · refine .inr ⟨slot, e, ?_, hseq, hr⟩
            rw [hq', LoadQueue.get_free, if_neg hs, he]

theorem mem_deliveredSeqs_iff (h : q.Apart) (he : q.get slot = some e) :
    e.seq ∈ deliveredSeqs records (deliverAll polls q records).instructions ↔
      Collects polls records slot e.seq e.readyAt := by
  rw [mem_deliveredSeqs]
  constructor
  · rintro ⟨s, e', he', hseq, hc⟩
    obtain rfl := h s slot e' e he' he hseq
    obtain rfl := Option.some.inj (he'.symm.trans he)
    exact hc
  · exact fun hc => ⟨slot, e, he, rfl, hc⟩

theorem get_deliverAll_iff_not_mem (h : q.Apart) :
    (deliverAll polls q records).loads.get slot = some e ↔ q.get slot = some e ∧
      e.seq ∉ deliveredSeqs records (deliverAll polls q records).instructions := by
  rw [get_deliverAll_iff]
  exact and_congr_right fun he => not_congr (mem_deliveredSeqs_iff h he).symm

theorem nodup_deliveredSeqs (h : q.Apart) (records : List Instruction) :
    (deliveredSeqs records (deliverAll polls q records).instructions).Nodup := by
  induction records generalizing q with
  | nil => exact .nil
  | cons i records ih =>
    cases hdeliver : deliver polls q i with
    | none =>
      rw [deliveredSeqs_of_none hdeliver]
      exact ih h
    | some r =>
      rw [deliveredSeqs_of_some hdeliver, List.nodup_cons, mem_deliveredSeqs]
      obtain ⟨s, e', -, he', hseq', -, hq'⟩ := deliver_frees hdeliver
      rw [hq']
      refine ⟨?_, ih (h.free s)⟩
      rintro ⟨slot, e, he, hseq, -⟩
      have hs : s = slot := h _ _ _ _ he' (get_of_get_free he) (hseq'.trans hseq.symm)
      rw [LoadQueue.get_free, if_pos hs] at he
      cases he

end Poll

inductive LoadCall where
  | issued (polls : Nat) (i : Instruction) (va pa : Word) (width : Width)
      (found : Option (Word × Access)) (j : Instruction)
  | refused (i : Instruction)
  | polled (polls : Nat) (records answers : List Instruction)
  | squashed (seq : Nat)
  | cleared

namespace LoadCall

def issuedSeq? : LoadCall → Option Nat
  | issued _ i _ _ _ _ _ => some i.seq
  | _ => none

def ticket? : LoadCall → Option (Nat × LoadEntry)
  | issued polls i va pa width found j => do
    let (raw, access) ← found
    let slot ← j.slot
    return (slot, ⟨i.seq, va, pa, width, raw, polls + access.latency⟩)
  | _ => none

def delivered : LoadCall → List Nat
  | issued _ i _ _ _ _ j => if j.slot = none then [i.seq] else []
  | polled _ records answers => deliveredSeqs records answers
  | _ => []

def drops (seq : Nat) : LoadCall → Bool
  | squashed first => first ≤ seq
  | cleared => true
  | _ => false

def spares (c : LoadCall) (seq : Nat) : Bool := !c.drops seq && !c.delivered.contains seq

theorem spares_iff {c : LoadCall} {seq : Nat} :
    c.spares seq = true ↔ c.drops seq = false ∧ seq ∉ c.delivered := by
  simp [spares]

end LoadCall

def issuedSeqs (h : List LoadCall) : List Nat := h.filterMap LoadCall.issuedSeq?

def Distinct (h : List LoadCall) : Prop := (issuedSeqs h).Nodup

theorem issuedSeqs_append (later earlier : List LoadCall) :
    issuedSeqs (later ++ earlier) = issuedSeqs later ++ issuedSeqs earlier := List.filterMap_append

theorem issuedSeqs_cons {c : LoadCall} {seq : Nat} (hc : c.issuedSeq? = some seq)
    (h : List LoadCall) :
    issuedSeqs (c :: h) = seq :: issuedSeqs h := List.filterMap_cons_some hc

theorem mem_issuedSeqs_append (later : List LoadCall) {earlier : List LoadCall} {seq : Nat}
    (hseq : seq ∈ issuedSeqs earlier) : seq ∈ issuedSeqs (later ++ earlier) := by
  rw [issuedSeqs_append]
  exact List.mem_append_right _ hseq

theorem mem_issuedSeqs_cons {c : LoadCall} {h : List LoadCall} {seq : Nat}
    (hc : c.issuedSeq? = some seq) : seq ∈ issuedSeqs (c :: h) := by
  rw [issuedSeqs_cons hc]
  exact List.mem_cons_self

theorem Distinct.of_append {later earlier : List LoadCall} (hu : Distinct (later ++ earlier)) :
    Distinct earlier := by
  rw [Distinct, issuedSeqs_append] at hu
  exact hu.of_append_right

theorem Distinct.tail {c : LoadCall} {h : List LoadCall} (hu : Distinct (c :: h)) : Distinct h :=
  Distinct.of_append (show Distinct ([c] ++ h) from hu)

theorem Distinct.not_mem {c : LoadCall} {h : List LoadCall} {seq : Nat} (hu : Distinct (c :: h))
    (hc : c.issuedSeq? = some seq) : seq ∉ issuedSeqs h := by
  rw [Distinct, issuedSeqs_cons hc, List.nodup_cons] at hu
  exact hu.1

/-- The loads that were told to wait and were not delivered, squashed or cleared since, after calls
listed from the newest on. -/
def waiting : List LoadCall → List (Nat × LoadEntry)
  | [] => []
  | c :: h => c.ticket?.toList ++ (waiting h).filter fun t => c.spares t.2.seq

section

variable {π : Type} [BlockDevice π]

def found (m : Mbox π) (i : Instruction) (pa : Word) (width : Width) : Option (Word × Access) :=
  match MemoryHierarchy.read pa width.bytes m.memory with
  | .done (block, access) _ =>
    match m.stores.forward pa i.seq block with
    | .ok f => some (Word.ofBytes f.block, access)
    | .error _ => none
  | _ => none

inductive LoadStep (m : Mbox π) : LoadCall → Mbox π → Prop
  | issued {i j : Instruction} {va pa : Word} {width : Width} {answer : LoadIssue} {m' : Mbox π} :
    issueLoad i va pa width m = .done (j, answer) m' →
    LoadStep m (.issued m.polls i va pa width (m.found i pa width) j) m'
  | refused {i : Instruction} {va pa : Word} {width : Width} {e : BusError} {m' : Mbox π} :
    issueLoad i va pa width m = .failed e m' → LoadStep m (.refused i) m'
  | polled (records : List Instruction) :
    LoadStep m (.polled (m.polls + 1) records (m.poll records).1.instructions) (m.poll records).2
  | squashed (seq : Nat) : LoadStep m (.squashed seq) (m.squash seq)
  | cleared : LoadStep m .cleared m.clear

/-- The calls so far, the newest first. Between them anything may become of the stores and of
memory. -/
inductive LoadRun (config : Config) : List LoadCall → Mbox π → Prop
  | start {port : π} {m : Mbox π} : ofConfig config port = .ok m → LoadRun config [] m
  | other {h : List LoadCall} {m : Mbox π} (stores : StoreQueue) (memory : MemoryHierarchy π) :
    LoadRun config h m → LoadRun config h { m with stores, memory }
  | call {h : List LoadCall} {c : LoadCall} {m m' : Mbox π} :
    LoadRun config h m → LoadStep m c m' → LoadRun config (c :: h) m'

def CanIssue (m : Mbox π) (i : Instruction) (pa : Word) (width : Width) : Prop :=
  m.loads.HasRoom ∧ ∃ raw access, m.found i pa width = some (raw, access) ∧
    (access.latency = 0 ∨ m.polls + access.latency < Machine.limit)

variable {m m' : Mbox π} {i j : Instruction} {va pa : Word} {width : Width} {h : List LoadCall}
  {c : LoadCall} {config : Config}

theorem found_eq_some {raw : Word} {access : Access}
    (hf : m.found i pa width = some (raw, access)) :
    ∃ block memory f, MemoryHierarchy.read pa width.bytes m.memory = .done (block, access) memory ∧
      m.stores.forward pa i.seq block = .ok f ∧ raw = Word.ofBytes f.block := by
  unfold found at hf
  split at hf
  · rename_i block access' memory hread
    split at hf
    · rename_i f hforward
      cases hf
      exact ⟨block, memory, f, hread, hforward, rfl⟩
    · cases hf
  · cases hf

theorem CanIssue.reads (hc : m.CanIssue i pa width) :
    ∃ block access memory f, MemoryHierarchy.read pa width.bytes m.memory =
        .done (block, access) memory ∧ m.stores.forward pa i.seq block = .ok f ∧
      (access.latency = 0 ∨ m.polls + access.latency < Machine.limit) := by
  obtain ⟨-, raw, access, hfound, hclock⟩ := hc
  obtain ⟨block, memory, f, hread, hforward, -⟩ := found_eq_some hfound
  exact ⟨block, access, memory, f, hread, hforward, hclock⟩

omit [BlockDevice π] in
theorem answerLoad_takes {slot : Nat} {entry : LoadEntry} {q : LoadQueue}
    (hslot : slot < q.slots.length) (hfree : q.get slot = none) (hm : m.loads = q.put slot entry)
    (i : Instruction) (access : Access) (f : StoreQueue.Forwarded) :
    (answerLoad i slot access f m : Outcome (Mbox π) BusError (Instruction × LoadIssue)).Ends
      (fun a m' => a.2.access = access ∧
        (access.latency = 0 ∧ a.1 = i.delivered (Word.ofBytes f.block) ∧ m'.loads = q ∨
          access.latency ≠ 0 ∧ a.1 = { i with slot := some slot } ∧ m'.loads = q.put slot
            { entry with raw := Word.ofBytes f.block, readyAt := m.polls + access.latency }))
      (fun _ _ => False) (¬(access.latency = 0 ∨ m.polls + access.latency < Machine.limit)) := by
  have hget : m.loads.get slot = some entry := by
    rw [hm, LoadQueue.get_put hslot, if_pos rfl]
  unfold answerLoad
  split
  · rename_i hlatency
    rw [bind_done (releaseLoad_done hget), hm, LoadQueue.free_put hslot hfree]
    exact ⟨rfl, .inl ⟨hlatency, rfl, rfl⟩⟩
  · rename_i hlatency
    rw [bind_done (get_apply m)]
    by_cases hclock : m.polls + access.latency < Machine.limit
    · rw [Machine.add, if_pos hclock]
      refine ⟨rfl, .inr ⟨hlatency, rfl, ?_⟩⟩
      change m.loads.modify slot _ = _
      rw [hm, LoadQueue.modify_put hslot]
    · rw [Machine.add, if_neg hclock]
      exact not_or.mpr ⟨hlatency, hclock⟩

theorem issueLoad_takes (m : Mbox π) (i : Instruction) (va pa : Word) (width : Width) :
    (issueLoad i va pa width m).Ends
      (fun a m' => ∃ raw, m.found i pa width = some (raw, a.2.access) ∧
        (a.2.access.latency = 0 ∧ a.1 = i.delivered raw ∧ m'.loads = m.loads ∨
          a.2.access.latency ≠ 0 ∧ ∃ slot < m.loads.slots.length, m.loads.get slot = none ∧
            a.1 = { i with slot := some slot } ∧ m'.loads = m.loads.put slot
              ⟨i.seq, va, pa, width, raw, m.polls + a.2.access.latency⟩))
      (fun _ m' => m'.loads = m.loads ∧ ¬m.CanIssue i pa width) (¬m.CanIssue i pa width) := by
  unfold issueLoad
  obtain ⟨entry, hentry⟩ : ∃ e : LoadEntry, e = ⟨i.seq, va, pa, width, 0, 0⟩ := ⟨_, rfl⟩
  rw [← hentry]
  refine ends_bind ((allocateLoad_ends m entry).mono (fun _ _ h => h) (fun _ _ h => h.elim)
    fun hroom hcan => hroom hcan.1) ?_
  rintro slot _ ⟨hslot, hfree, rfl⟩
  have hput : (m.loads.put slot entry).get slot = some entry :=
    (LoadQueue.get_put hslot entry).trans (if_pos rfl)
  refine ends_bind (P := fun r m' =>
    ∃ memory, m' = ⟨m.loads.put slot entry, m.stores, m.polls, memory⟩ ∧
      MemoryHierarchy.read pa width.bytes m.memory = .done r memory) ?_ ?_
  · refine ends_tryCatch
      ((onMemory_ends (ends_self _)).mono (fun _ _ h => h) (fun _ _ h => h) ?_) ?_
    · rintro ⟨b, hbroken⟩ hcan
      obtain ⟨_, _, _, _, hread, -⟩ := hcan.reads
      cases hbroken.symm.trans hread
    · rintro e _ ⟨memory, rfl, hfailed⟩
      rw [bind_done (releaseLoad_done hput)]
      refine ⟨LoadQueue.free_put hslot hfree entry, fun hcan => ?_⟩
      obtain ⟨_, _, _, _, hread, -⟩ := hcan.reads
      cases hfailed.symm.trans hread
  · rintro ⟨block, access⟩ _ ⟨memory, rfl, hread⟩
    dsimp only
    rw [bind_done (get_apply _)]
    cases hforward : m.stores.forward pa i.seq block with
    | error b =>
      intro hcan
      obtain ⟨_, _, _, _, hread', hok, -⟩ := hcan.reads
      cases hread.symm.trans hread'
      cases hforward.symm.trans hok
    | ok f =>
      rw [bind_done (check_ok f)]
      refine (answerLoad_takes hslot hfree rfl i access f).mono ?_ (fun _ _ h => h.elim) ?_
      · rintro ⟨j, answer⟩ m' ⟨rfl, hanswer⟩
        refine ⟨Word.ofBytes f.block, ?_, hanswer.imp_right ?_⟩
        · rw [found, hread]
          simp only [hforward]
        · rintro ⟨hlatency, hj, hloads⟩
          refine ⟨hlatency, slot, hslot, hfree, hj, ?_⟩
          rw [hloads, hentry]
      · intro hclock hcan
        obtain ⟨_, _, _, _, hread', -, hok⟩ := hcan.reads
        cases hread.symm.trans hread'
        exact hclock hok

theorem mem_waiting_cons {t : Nat × LoadEntry} :
    t ∈ waiting (c :: h) ↔ c.ticket? = some t ∨ t ∈ waiting h ∧ c.spares t.2.seq = true := by
  rw [waiting, List.mem_append, Option.mem_toList, List.mem_filter]

theorem issued_of_ticket {t : Nat × LoadEntry} (ht : c.ticket? = some t) :
    ∃ polls i va pa width raw access j,
      c = .issued polls i va pa width (some (raw, access)) j ∧ j.slot = some t.1 ∧
        t.2 = ⟨i.seq, va, pa, width, raw, polls + access.latency⟩ := by
  cases c with
  | issued polls i va pa width found j =>
    simp only [LoadCall.ticket?, Option.bind_eq_bind, Option.bind_eq_some_iff, pure,
      Option.some.injEq] at ht
    obtain ⟨⟨raw, access⟩, rfl, slot, hslot, rfl⟩ := ht
    exact ⟨polls, i, va, pa, width, raw, access, j, rfl, hslot, rfl⟩
  | refused i => cases ht
  | polled polls records answers => cases ht
  | squashed seq => cases ht
  | cleared => cases ht

theorem issuedSeq_of_ticket {t : Nat × LoadEntry} (ht : c.ticket? = some t) :
    c.issuedSeq? = some t.2.seq := by
  obtain ⟨_, i, _, _, _, _, _, _, rfl, -, hentry⟩ := issued_of_ticket ht
  rw [hentry]
  rfl

theorem waiting_seqs (h : List LoadCall) :
    ((waiting h).map (·.2.seq)).Sublist (issuedSeqs h) := by
  induction h with
  | nil => exact .slnil
  | cons c h ih =>
    have hkept := ((waiting h).filter_sublist (p := fun t => c.spares t.2.seq)).map (·.2.seq)
    have hkept := hkept.trans ih
    rw [waiting, List.map_append]
    cases hc : c.ticket? with
    | none => exact hkept.trans ((List.sublist_cons_self c h).filterMap _)
    | some t =>
      rw [issuedSeqs_cons (issuedSeq_of_ticket hc)]
      exact hkept.cons_cons t.2.seq

theorem mem_issuedSeqs_of_waiting {t : Nat × LoadEntry} (ht : t ∈ waiting h) :
    t.2.seq ∈ issuedSeqs h := (waiting_seqs h).subset (List.mem_map_of_mem ht)

structure Accounts (h : List LoadCall) (q : LoadQueue) : Prop where
  counted : q.Counted
  slots : ∀ slot e, q.get slot = some e ↔ (slot, e) ∈ waiting h

namespace Accounts

variable {q : LoadQueue}

theorem apart (ha : Accounts h q) (hu : Distinct h) : q.Apart := by
  intro s s' e e' hs hs' hseq
  have hseqs := hu.sublist (waiting_seqs h)
  have heq := List.inj_on_of_nodup_map hseqs ((ha.slots s e).mp hs) ((ha.slots s' e').mp hs') hseq
  exact congrArg Prod.fst heq

theorem count_eq (ha : Accounts h q) (hu : Distinct h) : q.count = (waiting h).length := by
  have hslots : ((waiting h).map (·.1)).Nodup := by
    refine List.Nodup.map_on ?_ (hu.sublist (waiting_seqs h)).of_map
    rintro ⟨s, e⟩ ht ⟨s', e'⟩ ht' (rfl : s = s')
    rw [Option.some.inj (((ha.slots s e).mpr ht).symm.trans ((ha.slots s e').mpr ht'))]
  have hperm : ((waiting h).map (·.1)).Perm
      ((List.range q.slots.length).filter fun s => (q.get s).isSome) := by
    refine (List.perm_ext_iff_of_nodup hslots (List.nodup_range.filter _)).mpr fun s => ?_
    rw [List.mem_map, List.mem_filter, List.mem_range, Option.isSome_iff_exists]
    constructor
    · rintro ⟨⟨_, e⟩, ht, rfl⟩
      have hget := (ha.slots _ e).mpr ht
      exact ⟨(LoadQueue.lt_of_get hget).1, e, hget⟩
    · rintro ⟨-, e, he⟩
      exact ⟨(s, e), (ha.slots s e).mp he, rfl⟩
  rw [ha.counted, LoadQueue.countP_isSome_eq, ← hperm.length_eq, List.length_map]

theorem of_spared (ha : Accounts h q) (hticket : c.ticket? = none)
    (hspares : ∀ t ∈ waiting h, c.spares t.2.seq = true) : Accounts (c :: h) q := by
  refine ⟨ha.counted, fun slot e => ?_⟩
  rw [ha.slots, mem_waiting_cons, hticket]
  simp only [reduceCtorEq, false_or]
  exact ⟨fun ht => ⟨ht, hspares _ ht⟩, fun ht => ht.1⟩

theorem put (ha : Accounts h q) {slot : Nat} {e : LoadEntry} (hslot : slot < q.slots.length)
    (hfree : q.get slot = none) (hticket : c.ticket? = some (slot, e))
    (hspares : ∀ t ∈ waiting h, c.spares t.2.seq = true) : Accounts (c :: h) (q.put slot e) := by
  refine ⟨ha.counted.put hslot hfree e, fun s e' => ?_⟩
  rw [LoadQueue.get_put hslot, mem_waiting_cons, hticket, Option.some_inj, Prod.mk.injEq]
  split
  · rename_i heq
    subst heq
    rw [Option.some_inj]
    refine ⟨fun h => .inl ⟨rfl, h⟩, ?_⟩
    rintro (⟨-, h⟩ | ⟨ht, -⟩)
    · exact h
    · rw [← ha.slots, hfree] at ht
      cases ht
  · rename_i hne
    rw [ha.slots]
    refine ⟨fun ht => .inr ⟨ht, hspares _ ht⟩, ?_⟩
    rintro (⟨heq, -⟩ | ⟨ht, -⟩)
    · exact absurd heq hne
    · exact ht

theorem step (ha : Accounts h m.loads) (hs : LoadStep m c m') (hu : Distinct (c :: h)) :
    Accounts (c :: h) m'.loads := by
  cases hs with
  | @issued i j va pa width answer m' hrun =>
    have hends := issueLoad_takes m i va pa width
    rw [hrun] at hends
    obtain ⟨raw, hfound, ⟨-, rfl, hloads⟩ | ⟨-, slot, hslot, hfree, rfl, hloads⟩⟩ := hends
    · rw [hloads]
      refine ha.of_spared ?_ fun t ht => ?_
      · rw [hfound]
        rfl
      · refine LoadCall.spares_iff.mpr ⟨rfl, fun hdelivered => ?_⟩
        have hseq : t.2.seq = i.seq := List.mem_singleton.mp hdelivered
        exact hu.not_mem rfl (hseq ▸ mem_issuedSeqs_of_waiting ht)
    · rw [hloads]
      refine ha.put hslot hfree ?_ fun t ht => rfl
      rw [hfound]
      rfl
  | @refused i va pa width e m' hrun =>
    have hends := issueLoad_takes m i va pa width
    rw [hrun] at hends
    rw [hends.1]
    exact ha.of_spared rfl fun t ht => rfl
  | polled records =>
    refine ⟨(deliverAllChecked_eq ha.counted records).2, fun slot e => ?_⟩
    refine (get_deliverAll_iff_not_mem (ha.apart hu)).trans ?_
    rw [mem_waiting_cons, LoadCall.spares_iff, ← ha.slots]
    constructor
    · rintro ⟨he, hd⟩
      exact .inr ⟨he, rfl, hd⟩
    · rintro (ht | ⟨he, -, hd⟩)
      · cases ht
      · exact ⟨he, hd⟩
  | squashed seq =>
    refine ⟨ha.counted.squash seq, fun slot e => ?_⟩
    rw [mem_waiting_cons, LoadCall.spares_iff, ← ha.slots]
    change (m.loads.squash seq).2.get slot = some e ↔ _
    rw [LoadQueue.get_squash, Option.filter_eq_some_iff]
    simp [LoadCall.ticket?, LoadCall.drops, LoadCall.delivered]
  | cleared =>
    refine ⟨LoadQueue.counted_ofSize _, fun slot e => ?_⟩
    change (LoadQueue.ofSize _).get slot = some e ↔ _
    rw [LoadQueue.get_ofSize, mem_waiting_cons, LoadCall.spares_iff]
    simp [LoadCall.ticket?, LoadCall.drops]

end Accounts

namespace LoadRun

variable {later earlier : List LoadCall}

theorem accounts (hr : LoadRun config h m) (hu : Distinct h) : Accounts h m.loads := by
  induction hr with
  | start hm =>
    rw [(fresh_ofConfig hm).loads]
    refine ⟨LoadQueue.counted_ofSize _, fun slot e => ?_⟩
    rw [LoadQueue.get_ofSize]
    simp [waiting]
  | other stores memory _ ih => exact ih hu
  | call _ hs ih => exact (ih hu.tail).step hs hu

theorem split (hr : LoadRun config (later ++ c :: earlier) m) :
    ∃ m₀ m₁ : Mbox π, LoadRun config earlier m₀ ∧ LoadStep m₀ c m₁ := by
  generalize hh : later ++ c :: earlier = h at hr
  induction hr generalizing later with
  | start hm => exact absurd hh (by simp)
  | other stores memory _ ih => exact ih hh
  | @call h c' m m' hr hs ih =>
    cases later with
    | nil =>
      cases hh
      exact ⟨m, m', hr, hs⟩
    | cons c₀ later =>
      exact ih (List.cons.inj hh).2

end LoadRun

end

end Mbox

end EV6
