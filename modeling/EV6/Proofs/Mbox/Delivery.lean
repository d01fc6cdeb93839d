import EV6.Proofs.Mbox.ProgramOrder
/-!
Every load gets its data. A load that waits keeps its slot and its data, whatever the other accesses
do, until it is squashed or handed in to a poll; and a poll that comes late enough delivers it.
-/

namespace EV6.Mbox

open Outcome Step

variable {π : Type} {m m' n : Mbox π} {i j k : Instruction} {raw : Word} {due : Nat} {e : Event}
  {out : List Instruction}

def Awaits (m : Mbox π) (i : Instruction) (raw : Word) (due : Nat) : Prop :=
  ∃ slot entry, i.slot = some slot ∧ m.loads.get slot = some entry ∧ entry.seq = i.seq ∧
    entry.raw = raw ∧ entry.readyAt = due

def Event.Leaves (i : Instruction) : Event → Prop
  | squash seq => i.seq < seq
  | poll pending => ∀ k ∈ pending, k.slot ≠ i.slot
  | _ => True

theorem Awaits.of_loads (h : m.Awaits i raw due)
    (hkept : ∀ slot entry, i.slot = some slot → entry.seq = i.seq →
      m.loads.get slot = some entry → m'.loads.get slot = some entry) : m'.Awaits i raw due := by
  obtain ⟨slot, entry, hslot, hget, hseq, hrest⟩ := h
  exact ⟨slot, entry, hslot, hkept slot entry hslot hseq hget, hseq, hrest⟩

variable [BlockDevice π] {content : π → Memory} {ok : π → Prop} {answers : Word → Nat → Prop}
  {p q : Program}

theorem Awaits.step (hd : FlatDevice content ok answers) (hf : Follows content ok p m)
    (he : e.Legal p) (hl : e.Leaves i) (h : m.Awaits i raw due) :
    (e.run m).Ends (fun _ m' => m'.Awaits i raw due) (fun _ _ => True) True := by
  obtain ⟨es, hq, -, haligned⟩ := hf.stores
  cases e with
  | load j va pa width =>
    refine (hf.load_ends hd he).mono ?_ (fun _ _ _ => trivial) fun _ => trivial
    rintro _ m' ⟨_, -, hloaded⟩
    exact h.of_loads fun slot entry _ _ => hloaded.kept slot entry
  | store j va pa width data =>
    have hends := queueStore_ends hq j va pa width data
    refine ends_bind (hends.mono (fun _ _ h => h) (fun _ _ _ => trivial) fun _ => trivial) ?_
    rintro _ _ ⟨-, stores, rfl, -⟩
    exact h
  | retire =>
    rw [Event.run, bind_done (get_apply m)]
    cases es with
    | nil =>
      rw [hq.oldest_nil]
      exact h
    | cons e es =>
      have hends := retireStore_ends hd hf.memory hq (haligned e List.mem_cons_self)
      rw [hq.oldest_cons]
      refine ends_bind (hends.mono (fun _ _ h => h) (fun _ _ _ => trivial) False.elim) ?_
      rintro _ _ ⟨stores, memory, rfl, -⟩
      exact h
  | squash seq =>
    refine h.of_loads fun slot entry _ hseq hget => ?_
    rw [show (m.squash seq).loads = (m.loads.squash seq).2 from rfl, LoadQueue.get_squash, hget]
    exact Option.filter_some_pos (decide_eq_true (hseq ▸ hl))
  | poll pending =>
    refine h.of_loads fun slot entry hslot _ hget => ?_
    rw [← hget]
    exact get_deliverAll fun k hk => hslot ▸ hl k hk

inductive Since (i : Instruction) (p : Program) (m : Mbox π) : Program → Mbox π → Prop
  | refl : Since i p m p m
  | step {q : Program} {n n' : Mbox π} {e : Event} {out : List Instruction}
      (hs : Since i p m q n) (he : e.Legal q) (hl : e.Leaves i) (hm : e.run n = .done out n') :
      Since i p m (q.step e) n'

theorem Since.run (hr : Run content ok p m) (hs : Since i p m q n) : Run content ok q n := by
  induction hs with
  | refl => exact hr
  | step _ he _ hm ih => exact .step ih he hm

theorem Since.awaits (hd : FlatDevice content ok answers) (hr : Run content ok p m)
    (hs : Since i p m q n) (h : m.Awaits i raw due) : n.Awaits i raw due := by
  induction hs with
  | refl => exact h
  | step hs he hl hm ih =>
    have hends := ih.step hd ((hs.run hr).follows hd) he hl
    rw [hm] at hends
    exact hends

omit [BlockDevice π] in
theorem Awaits.delivers (h : m.Awaits i raw due) (hdue : due ≤ m.polls + 1) :
    Delivers (m.polls + 1) m.loads i (i.delivered raw) := by
  obtain ⟨slot, entry, hslot, hget, hseq, rfl, rfl⟩ := h
  exact ⟨slot, entry, hslot, hget, hseq, hdue, rfl⟩

/-- The load gets the data unless it is squashed: a poll that comes late enough delivers it to the
first of the instructions handed in that have its slot. -/
def GetsLater (p : Program) (m : Mbox π) (i : Instruction) (raw : Word) : Prop :=
  ∃ due, ∀ q n, Since i p m q n → due ≤ n.polls + 1 →
    ∀ front back, (∀ k ∈ front, k.slot ≠ i.slot) →
      ∃ out n', (Event.poll (front ++ i :: back)).run n = .done out n' ∧
        out[front.length]? = some (i.delivered raw)

theorem Awaits.getsLater (hd : FlatDevice content ok answers) (hr : Run content ok p m)
    (h : m.Awaits i raw due) : GetsLater p m i raw := by
  refine ⟨due, fun q n hs hdue front back hfront => ⟨_, _, rfl, ?_⟩⟩
  exact deliverAll_delivers hfront ((hs.awaits hd hr h).delivers hdue)

def Event.Completes (p : Program) (m : Mbox π) : Event → List Instruction → Prop
  | load i _ _ _, out => ∀ j ∈ out, j.slot ≠ none →
    ∃ raw, p.expected i.seq = some raw ∧ GetsLater p m j raw
  | _, _ => True

theorem completes (hd : FlatDevice content ok answers) (hr : Run content ok p m)
    (he : e.Legal p) (hm : e.run m = .done out m') : e.Completes (p.step e) m' out := by
  cases e with
  | load i va pa width =>
    have hrun := hr.step he hm
    have hends := (hr.follows hd).load_ends hd he
    rw [hm] at hends
    obtain ⟨j, rfl, hloaded⟩ := hends
    intro k hk hslot
    rw [List.mem_singleton.mp hk] at hslot ⊢
    rcases hloaded.answer with rfl | ⟨slot, entry, rfl, hget, hseq, hraw⟩
    · exact absurd rfl hslot
    · refine ⟨p.value i.seq pa width, if_pos rfl, ?_⟩
      exact Awaits.getsLater hd hrun ⟨slot, entry, rfl, hget, hseq, hraw, rfl⟩
  | store i va pa width data => trivial
  | retire => trivial
  | squash seq => trivial
  | poll pending => trivial

theorem loads_see_program_order (hd : FlatDevice content ok answers) (hr : Run content ok p m)
    (he : e.Legal p) :
    (e.run m).Ends
      (fun out m' => e.Answers (p.step e) out ∧ e.Completes (p.step e) m' out ∧
        MemoryHierarchy.newest content m'.memory = (p.step e).initial.after (p.step e).retired)
      (fun _ _ => ¬e.Served answers m) (¬e.Fits m) := by
  refine (advances hd (hr.follows hd) he).with_done.mono ?_ (fun _ _ h => h) id
  rintro out m' ⟨hm, hanswers, hfollows⟩
  exact ⟨hanswers, completes hd hr he hm, hfollows.memory.newestEq⟩

def sampleStore (seq : Nat) : Instruction := .ofMnemonic (.store .stq) seq

def sampleLoad : Instruction := .ofMnemonic (.load .ldq) 3

def sampleProgram : Program :=
  [Event.store (sampleStore 1) 8 8 .quad 0x1111111122222222,
    .store (sampleStore 2) 12 12 .long 0x33333333, .retire].foldl
    .step (.start (MemoryPort.content .sample))

theorem sample_load_sees_program_order :
    ∃ m, Run MemoryPort.content (MemoryPort.Open 0 8192) sampleProgram m ∧
      ∃ j m', (Event.load sampleLoad 8 8 .quad).run m = .done [j] m' ∧
        j = sampleLoad.delivered 0x3333333322222222 ∧
        MemoryHierarchy.newest MemoryPort.content m'.memory 12 = 0x11 := by
  obtain ⟨m, hrun, j, m', hdone, hslot⟩ :
      ∃ m, Run MemoryPort.content (MemoryPort.Open 0 8192) sampleProgram m ∧
        ∃ j m', (Event.load sampleLoad 8 8 .quad).run m = .done [j] m' ∧ j.slot = none := by
    have hstart : Run MemoryPort.content (MemoryPort.Open 0 8192) _ _ :=
      .start (show MemoryHierarchy.sampleConfig.validate = .ok () from rfl)
        (show ofConfig _ MemoryPort.sample = _ from rfl) MemoryPort.open_sample
    have hfirst := hstart.step (e := .store (sampleStore 1) 8 8 .quad 0x1111111122222222)
      ⟨⟨by decide, by decide, fun _ h => absurd rfl h⟩, rfl⟩ rfl
    have hsecond := hfirst.step (e := .store (sampleStore 2) 12 12 .long 0x33333333)
      ⟨⟨by decide, by decide, fun _ h => absurd rfl h⟩, rfl⟩ rfl
    exact ⟨_, hsecond.step (e := .retire) trivial rfl, _, _, rfl, rfl⟩
  have hends := loads_see_program_order (MemoryPort.flat_of_open 0 8192) hrun
    (e := .load sampleLoad 8 8 .quad) ⟨⟨by decide, by decide, fun _ h => absurd rfl h⟩, rfl⟩
  rw [hdone] at hends
  obtain ⟨⟨k, hk, hanswer⟩, -, hnewest⟩ := hends
  cases hk
  refine ⟨m, hrun, j, m', hdone, ?_, (congrFun hnewest 12).trans (by decide)⟩
  have hvalue : (sampleProgram.step (.load sampleLoad 8 8 .quad)).expected sampleLoad.seq =
      some 0x3333333322222222 := by decide
  rcases hanswer with ⟨w, hw, hj⟩ | ⟨slot, rfl⟩
  · rw [hvalue] at hw
    cases hw
    exact hj
  · cases hslot

end EV6.Mbox
