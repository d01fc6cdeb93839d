import EV6.Proofs.Mbox.Access
/-!
Loads see program order: what a load gets is what a memory holds to which the stores before it were
written one after another, whether they wait or have retired. The hierarchy shows the stores that
have retired, and no others.
-/

namespace EV6

open Outcome Step

namespace Mbox

inductive Event where
  | load (i : Instruction) (va pa : Word) (width : Width)
  | store (i : Instruction) (va pa : Word) (width : Width) (data : Word)
  | retire
  | squash (seq : Nat)
  | poll (pending : List Instruction)

def Event.run {π : Type} [BlockDevice π] : Event → Step (Mbox π) BusError (List Instruction)
  | load i va pa width => do return [(← issueLoad i va pa width).1]
  | store i va pa width data => do return [← queueStore i va pa width data]
  | retire => do
    match (← get).stores.oldest with
    | some slot => do
      let _ ← retireStore slot
      return []
    | none => return []
  | squash seq => do
    modify (·.squash seq)
    return []
  | poll pending => do return (← modifyGet (·.poll pending)).instructions

end Mbox

/-- What the accesses so far come to in program order. -/
structure Program where
  initial : Memory
  retired : List OrderedWrite
  waiting : List OrderedWrite
  expected : Nat → Option Word

namespace Program

open Mbox

def start (initial : Memory) : Program := ⟨initial, [], [], fun _ => none⟩

def value (p : Program) (seq : Nat) (pa : Word) (width : Width) : Word :=
  let older := (p.retired ++ p.waiting).filter (·.seq < seq)
  Word.ofBytes ((p.initial.after older).bytes pa.toNat width.bytes)

def step (p : Program) : Event → Program
  | .load i _ pa width =>
    { p with
      expected := fun seq =>
        if seq = i.seq then some (p.value i.seq pa width) else p.expected seq }
  | .store i _ pa width data =>
    { p with waiting := p.waiting ++ [⟨i.seq, pa.toNat, Word.toBytes data width.bytes⟩] }
  | .retire =>
    { p with retired := p.retired ++ p.waiting.take 1, waiting := p.waiting.drop 1 }
  | .squash seq =>
    { p with
      waiting := p.waiting.filter (·.seq < seq)
      expected := fun n => if n < seq then p.expected n else none }
  | .poll _ => p

structure Before (p : Program) (seq : Nat) : Prop where
  retired : ∀ w ∈ p.retired, w.seq < seq
  waiting : ∀ w ∈ p.waiting, w.seq < seq
  loads : ∀ n, p.expected n ≠ none → n < seq

end Program

namespace Mbox

def Event.Legal (p : Program) : Event → Prop
  | load i _ pa width => p.Before i.seq ∧ pa.toNat % width.bytes = 0
  | store i _ pa width _ => p.Before i.seq ∧ pa.toNat % width.bytes = 0
  | _ => True

def Event.Answers (p : Program) : Event → List Instruction → Prop
  | load i _ _ _, out => ∃ j, out = [j] ∧
    ((∃ w, p.expected i.seq = some w ∧ j = i.delivered w) ∨ ∃ slot, j = { i with slot := some slot })
  | store i _ _ _ _, out => ∃ slot, out = [{ i with slot := some slot }]
  | poll pending, out => out.length = pending.length ∧
    ∀ (n : Nat) (i j : Instruction), pending[n]? = some i → out[n]? = some j →
      j = i ∨ ∃ w, p.expected i.seq = some w ∧ j = i.delivered w
  | _, out => out = []

variable {π : Type}

def Event.Fits (m : Mbox π) [BlockDevice π] : Event → Prop
  | load _ _ pa width => m.LoadFits pa width
  | store _ _ _ _ _ => m.stores.isFull = false
  | _ => True

def Event.Served (answers : Word → Nat → Prop) (m : Mbox π) : Event → Prop
  | load _ _ pa width => m.memory.Served answers pa width.bytes
  | retire => ∀ e, m.stores.entries.head? = some e → m.memory.Served answers e.pa e.width.bytes
  | _ => True

variable [BlockDevice π] {content : π → Memory} {ok : π → Prop} {answers : Word → Nat → Prop}
  {m m' : Mbox π} {p : Program} {e : Event}

inductive Run (content : π → Memory) (ok : π → Prop) : Program → Mbox π → Prop
  | start {config : Config} {port : π} {m : Mbox π} (hvalid : config.validate = .ok ())
      (hm : ofConfig config port = .ok m) (hport : ok port) :
      Run content ok (.start (content port)) m
  | step {p : Program} {m m' : Mbox π} {e : Event} {out : List Instruction}
      (hr : Run content ok p m) (he : e.Legal p) (hm : e.run m = .done out m') :
      Run content ok (p.step e) m'

structure Follows (content : π → Memory) (ok : π → Prop) (p : Program) (m : Mbox π) : Prop where
  memory : m.memory.Shows content ok (p.initial.after p.retired)
  stores : ∃ es, m.stores.Holds es ∧ es.map StoreEntry.toWrite = p.waiting ∧
    ∀ e ∈ es, e.pa.toNat % e.width.bytes = 0
  sorted : p.waiting.Pairwise fun a b => a.seq < b.seq
  loads : ∀ slot e, m.loads.get slot = some e → p.expected e.seq = some e.raw

namespace Follows

omit [BlockDevice π]

theorem start {config : Config} {port : π} (hvalid : config.validate = .ok ())
    (hm : ofConfig config port = .ok m) (hport : ok port) :
    Follows content ok (.start (content port)) m := by
  have hfresh := fresh_ofConfig hm
  obtain ⟨hsound, -, rfl, hcopy⟩ := MemoryHierarchy.ofConfig_spec hvalid hfresh.memory hport
  refine ⟨MemoryHierarchy.shows_of_empty hsound hcopy, ⟨[], ?_, rfl, by simp⟩, .nil, ?_⟩
  · rw [hfresh.stores]
    exact StoreQueue.holds_ofSize _
  · intro slot e he
    rw [hfresh.loads, LoadQueue.get_ofSize] at he
    cases he

theorem mem_waiting {es : List StoreEntry} (hes : es.map StoreEntry.toWrite = p.waiting)
    {seq : Nat} (hb : p.Before seq) : ∀ e ∈ es, e.seq < seq := by
  intro e he
  have hw : e.toWrite ∈ p.waiting := hes ▸ List.mem_map_of_mem he
  exact hb.waiting e.toWrite hw

theorem value_eq {seq : Nat} (hb : p.Before seq) (pa : Word) (width : Width) :
    p.value seq pa width =
      Word.ofBytes (((p.initial.after p.retired).after p.waiting).bytes pa.toNat width.bytes) := by
  have hall : (p.retired ++ p.waiting).filter (·.seq < seq) = p.retired ++ p.waiting := by
    rw [List.filter_eq_self]
    intro w hw
    rcases List.mem_append.mp hw with hw | hw
    · exact decide_eq_true (hb.retired w hw)
    · exact decide_eq_true (hb.waiting w hw)
  rw [Program.value, hall, Memory.after_append]

end Follows

def Advances (content : π → Memory) (ok : π → Prop) (answers : Word → Nat → Prop) (p : Program)
    (m : Mbox π) (e : Event) : Prop :=
  (e.run m).Ends
    (fun out m' => e.Answers (p.step e) out ∧ Follows content ok (p.step e) m')
    (fun _ _ => ¬e.Served answers m) (¬e.Fits m)

theorem Follows.load_ends (hd : FlatDevice content ok answers) (hf : Follows content ok p m)
    {i : Instruction} {va pa : Word} {width : Width} (he : (Event.load i va pa width).Legal p) :
    ((Event.load i va pa width).run m).Ends
      (fun out m' => ∃ j, out = [j] ∧
        Loaded content ok (p.initial.after p.retired) (p.value i.seq pa width) i m j m')
      (fun _ _ => ¬m.memory.Served answers pa width.bytes) (¬m.LoadFits pa width) := by
  obtain ⟨hbefore, ha⟩ := he
  obtain ⟨es, hq, hes, -⟩ := hf.stores
  refine ends_bind (issueLoad_ends hd hf.memory hq (mem_waiting hes hbefore) va ha) ?_
  rintro ⟨j, issue⟩ m' hloaded
  rw [hes, ← value_eq hbefore] at hloaded
  exact ⟨j, rfl, hloaded⟩

theorem advances_load (hd : FlatDevice content ok answers) (hf : Follows content ok p m)
    {i : Instruction} {va pa : Word} {width : Width} (he : (Event.load i va pa width).Legal p) :
    Advances content ok answers p m (.load i va pa width) := by
  refine (hf.load_ends hd he).mono ?_ (fun _ _ h => h) id
  rintro _ m' ⟨j, rfl, hloaded⟩
  have hexpected : (p.step (.load i va pa width)).expected i.seq =
      some (p.value i.seq pa width) := if_pos rfl
  refine ⟨⟨j, rfl, ?_⟩, hloaded.memory, hloaded.stores ▸ hf.stores, hf.sorted, ?_⟩
  · rcases hloaded.answer with hj | ⟨slot, _, hj, -⟩
    · exact .inl ⟨_, hexpected, hj⟩
    · exact .inr ⟨slot, hj⟩
  · intro slot e hget
    rcases hloaded.loads slot e hget with hold | ⟨hseq, hraw⟩
    · have hkept := hf.loads slot e hold
      have hlt := he.1.loads e.seq (by rw [hkept]; exact Option.some_ne_none _)
      rw [← hkept]
      exact if_neg (Nat.ne_of_lt hlt)
    · rw [hseq, hexpected, hraw]

theorem advances_store (hf : Follows content ok p m) {i : Instruction} {va pa : Word}
    {width : Width} {data : Word} (he : (Event.store i va pa width data).Legal p) :
    Advances content ok answers p m (.store i va pa width data) := by
  obtain ⟨hbefore, ha⟩ := he
  obtain ⟨es, hq, hes, haligned⟩ := hf.stores
  refine ends_bind ((queueStore_ends hq i va pa width data).mono (fun _ _ h => h)
    (fun _ _ h => h.elim) fun hfull hfits => ?_) ?_
  · cases hfull.symm.trans hfits
  rintro j _ ⟨⟨slot, rfl⟩, stores, rfl, hholds⟩
  refine ⟨⟨slot, rfl⟩, hf.memory, ⟨_, hholds, ?_, ?_⟩, ?_, hf.loads⟩
  · rw [List.map_append, hes, List.map_singleton, StoreEntry.toWrite, StoreEntry.bytes,
      Word.toBytes_zeroExtend]
    rfl
  · intro e he
    rcases List.mem_append.mp he with he | he
    · exact haligned e he
    · rw [List.mem_singleton.mp he]
      exact ha
  · refine List.pairwise_append.mpr ⟨hf.sorted, List.pairwise_singleton _ _, ?_⟩
    intro w hw v hv
    rw [List.mem_singleton.mp hv]
    exact hbefore.waiting w hw

theorem advances_retire (hd : FlatDevice content ok answers) (hf : Follows content ok p m) :
    Advances content ok answers p m .retire := by
  obtain ⟨es, hq, hes, haligned⟩ := hf.stores
  rw [Advances, Event.run, bind_done (get_apply m)]
  cases es with
  | nil =>
    have hnone : p.waiting = [] := hes.symm
    have hstep : p.step .retire = p := by
      rw [Program.step, hnone, List.take_nil, List.drop_nil, List.append_nil, ← hnone]
    rw [hq.oldest_nil]
    exact ⟨rfl, hstep.symm ▸ hf⟩
  | cons e es =>
    have hcons : p.waiting = e.toWrite :: es.map StoreEntry.toWrite := hes.symm
    rw [hq.oldest_cons]
    refine ends_bind ((retireStore_ends hd hf.memory hq (haligned e List.mem_cons_self)).mono
      (fun _ _ h => h) (fun _ _ h hserved => h (hserved e ?_)) False.elim) ?_
    · rw [hq.entries]
      rfl
    · rintro _ _ ⟨stores, h, rfl, hholds, hshows⟩
      have hsorted := hf.sorted
      rw [hcons] at hsorted
      refine ⟨rfl, ?_, ⟨es, hholds, ?_, fun e he => haligned e (List.mem_cons_of_mem _ he)⟩, ?_,
        hf.loads⟩
      · rw [Program.step, hcons, Memory.after_append]
        exact hshows
      · rw [Program.step, hcons]
        rfl
      · rw [Program.step, hcons]
        exact (List.pairwise_cons.mp hsorted).2

theorem advances_squash (hf : Follows content ok p m) (seq : Nat) :
    Advances content ok answers p m (.squash seq) := by
  obtain ⟨es, hq, hes, haligned⟩ := hf.stores
  have hsorted := hf.sorted
  rw [← hes, List.pairwise_map] at hsorted
  refine ⟨rfl, hf.memory, ⟨_, hq.squash hsorted seq, ?_, ?_⟩, hf.sorted.filter _, ?_⟩
  · rw [Program.step, ← hes, List.filter_map]
    rfl
  · intro e he
    exact haligned e (List.mem_filter.mp he).1
  · intro slot e he
    rw [show (m.squash seq).loads = (m.loads.squash seq).2 from rfl, LoadQueue.get_squash,
      Option.filter_eq_some_iff] at he
    obtain ⟨hget, hseq⟩ := he
    exact (if_pos (of_decide_eq_true hseq)).trans (hf.loads slot e hget)

theorem advances_poll (hf : Follows content ok p m) (pending : List Instruction) :
    Advances content ok answers p m (.poll pending) := by
  refine ⟨⟨deliverAll_length _ _ _, fun n i j hi hj => ?_⟩, hf.memory, hf.stores, hf.sorted,
    fun slot e he => hf.loads slot e (get_of_deliverAll he)⟩
  refine (deliverAll_spec hi hj).imp_right ?_
  rintro ⟨slot, e, -, hget, hseq, -, rfl⟩
  exact ⟨e.raw, hseq ▸ hf.loads slot e hget, rfl⟩

theorem advances (hd : FlatDevice content ok answers) (hf : Follows content ok p m)
    (he : e.Legal p) : Advances content ok answers p m e := by
  cases e with
  | load i va pa width => exact advances_load hd hf he
  | store i va pa width data => exact advances_store hf he
  | retire => exact advances_retire hd hf
  | squash seq => exact advances_squash hf seq
  | poll pending => exact advances_poll hf pending

theorem Run.follows (hd : FlatDevice content ok answers) (hr : Run content ok p m) :
    Follows content ok p m := by
  induction hr with
  | start hvalid hm hport => exact .start hvalid hm hport
  | step hr he hm ih =>
    have hends := advances hd ih he
    rw [Advances, hm] at hends
    exact hends.2

end Mbox

end EV6
