import EV6.Proofs.Mbox.Queues
/-!
The ring of waiting stores is a list of stores and their slots: allocation appends, only the first
store retires, and a squash takes the longest end of the list that is at or after its sequence
number.
-/

namespace EV6

inductive StoreCall where
  | allocate (e : StoreEntry)
  | retire (slot : Nat)
  | squash (seq : Nat)
  | clear

inductive StoreAnswer where
  | slot (slot : Nat)
  | store (e : StoreEntry)
  | dropped (count : Nat)
  | done
  deriving DecidableEq, Repr

def StoreCall.allocated : StoreCall → Option StoreEntry
  | .allocate e => some e
  | _ => none

def serveCalls {σ : Type} (serve : σ → StoreCall → Except Breach (StoreAnswer × σ)) (s : σ) :
    List StoreCall → Except Breach (List StoreAnswer × σ)
  | [] => .ok ([], s)
  | call :: calls => do
    let (answer, s) ← serve s call
    let (answers, s) ← serveCalls serve s calls
    return (answer :: answers, s)

theorem serveCalls_cons {σ : Type} {serve : σ → StoreCall → Except Breach (StoreAnswer × σ)}
    {s u : σ} {call : StoreCall} {calls : List StoreCall} {answers : List StoreAnswer} :
    serveCalls serve s (call :: calls) = .ok (answers, u) ↔
      ∃ answer t rest, serve s call = .ok (answer, t) ∧ serveCalls serve t calls = .ok (rest, u) ∧
        answers = answer :: rest := by
  rw [serveCalls]
  cases serve s call with
  | error b => simp [bind, Except.bind]
  | ok r =>
    obtain ⟨answer, t⟩ := r
    change (serveCalls serve t calls >>= fun r => .ok (answer :: r.1, r.2)) = _ ↔ _
    cases hrest : serveCalls serve t calls with
    | error b => simp [bind, Except.bind, hrest]
    | ok r =>
      obtain ⟨rest, u'⟩ := r
      simp [bind, Except.bind, hrest, and_comm, eq_comm]

structure QueuedStore where
  slot : Nat
  store : StoreEntry
  deriving DecidableEq, Repr

structure StoreList where
  capacity : Nat
  stores : List QueuedStore
  next : Nat
  deriving DecidableEq, Repr

namespace StoreList

def ofSize (capacity : Nat) : StoreList := ⟨capacity, [], 0⟩

def allocate (l : StoreList) (e : StoreEntry) : Except Breach (Nat × StoreList) :=
  if l.stores.length = l.capacity then .error (.storeQueueFull e.seq)
  else .ok (l.next, { l with stores := l.stores ++ [⟨l.next, e⟩], next := (l.next + 1) % l.capacity })

def retire (l : StoreList) (slot : Nat) : Except Breach (StoreEntry × StoreList) :=
  match l.stores with
  | first :: rest =>
    if slot = first.slot then .ok (first.store, { l with stores := rest })
    else .error (.storeOutOfOrder slot)
  | [] => .error (.storeOutOfOrder slot)

/-- Drops the longest end of the list whose stores are all at or after `seq`. The next store takes
the first slot that this leaves. -/
def squash (l : StoreList) (seq : Nat) : Nat × StoreList :=
  let gone := l.stores.rtakeWhile (seq ≤ ·.store.seq)
  (gone.length,
    { l with stores := l.stores.rdropWhile (seq ≤ ·.store.seq)
             next := gone.head?.elim l.next (·.slot) })

def clear (l : StoreList) : StoreList := ofSize l.capacity

def serve (l : StoreList) : StoreCall → Except Breach (StoreAnswer × StoreList)
  | .allocate e => (l.allocate e).map fun (slot, l) => (.slot slot, l)
  | .retire slot => (l.retire slot).map fun (e, l) => (.store e, l)
  | .squash seq => .ok (.dropped (l.squash seq).1, (l.squash seq).2)
  | .clear => .ok (.done, l.clear)

theorem squash_append (l : StoreList) (seq : Nat) :
    (l.squash seq).2.stores ++ l.stores.rtakeWhile (seq ≤ ·.store.seq) = l.stores :=
  List.rdropWhile_append_rtakeWhile

theorem stores_squash (l : StoreList) (seq : Nat) :
    (l.squash seq).2.stores.map (·.store) =
      (l.stores.map (·.store)).rdropWhile (seq ≤ ·.seq) := by
  rw [squash, List.rdropWhile, List.rdropWhile, ← List.map_reverse, List.dropWhile_map,
    List.map_reverse]
  rfl

theorem dropped_squash (l : StoreList) (seq : Nat) :
    (l.squash seq).1 = ((l.stores.map (·.store)).rtakeWhile (seq ≤ ·.seq)).length := by
  rw [squash, List.rtakeWhile, List.rtakeWhile, ← List.map_reverse, List.takeWhile_map,
    ← List.map_reverse, List.length_map]
  rfl

def before (l : StoreList) (seq : Nat) : List QueuedStore := l.stores.filter (·.store.seq < seq)

def added (l : StoreList) (call : StoreCall) : List QueuedStore :=
  (call.allocated.map (⟨l.next, ·⟩)).toList

variable {l l' : StoreList} {call : StoreCall} {answer : StoreAnswer}

theorem serve_stores (h : l.serve call = .ok (answer, l')) :
    ∃ kept, kept <:+: l.stores ∧ l'.stores = kept ++ l.added call := by
  cases call with
  | allocate e =>
    rw [serve, allocate] at h
    split at h
    · cases h
    · cases h
      exact ⟨l.stores, List.infix_rfl, rfl⟩
  | retire slot =>
    rw [serve, retire] at h
    split at h
    · rename_i first rest hstores
      split at h
      · cases h
        exact ⟨rest, hstores ▸ (List.suffix_cons first rest).isInfix, (List.append_nil _).symm⟩
      · cases h
    · cases h
  | squash seq =>
    cases h
    exact ⟨_, (List.rdropWhile_prefix _ _).isInfix, (List.append_nil _).symm⟩
  | clear =>
    cases h
    exact ⟨[], List.nil_infix, rfl⟩

theorem serveCalls_sublist {calls : List StoreCall} {answers : List StoreAnswer}
    (h : serveCalls serve l calls = .ok (answers, l')) :
    (l'.stores.map (·.store)).Sublist
      (l.stores.map (·.store) ++ calls.filterMap StoreCall.allocated) := by
  induction calls generalizing l answers with
  | nil =>
    cases h
    simp
  | cons call calls ih =>
    obtain ⟨answer, mid, rest, hcall, hrest, -⟩ := serveCalls_cons.mp h
    obtain ⟨kept, hkept, hmid⟩ := serve_stores hcall
    have hadded : (l.added call).map (·.store) = call.allocated.toList := by
      cases call <;> rfl
    have hcalls : (call :: calls).filterMap StoreCall.allocated =
        call.allocated.toList ++ calls.filterMap StoreCall.allocated := by
      cases call <;> rfl
    refine (ih hrest).trans ?_
    rw [hmid, List.map_append, hadded, hcalls, List.append_assoc]
    exact (hkept.sublist.map _).append_right _

theorem serveCalls_retire (l : StoreList) :
    serveCalls serve l (l.stores.map (.retire ·.slot)) =
      .ok (l.stores.map (.store ·.store), { l with stores := [] }) := by
  obtain ⟨capacity, stores, next⟩ := l
  induction stores with
  | nil => rfl
  | cons first rest ih =>
    refine serveCalls_cons.mpr ⟨.store first.store, ⟨capacity, rest, next⟩, _, ?_, ih, rfl⟩
    simp [serve, retire, Except.map]

end StoreList

inductive Alike {α σ τ : Type} (R : σ → τ → Prop) :
    Except Breach (α × σ) → Except Breach (α × τ) → Prop
  | error (b : Breach) : Alike R (.error b) (.error b)
  | ok (answer : α) {s : σ} {t : τ} (related : R s t) : Alike R (.ok (answer, s)) (.ok (answer, t))

theorem Alike.mono {α σ τ : Type} {R R' : σ → τ → Prop} (hR : ∀ s t, R s t → R' s t)
    {x : Except Breach (α × σ)} {y : Except Breach (α × τ)} (h : Alike R x y) : Alike R' x y := by
  cases h with
  | error b => exact .error b
  | ok answer related => exact .ok answer (hR _ _ related)

theorem Alike.map {α β σ τ : Type} {R : σ → τ → Prop} {x : Except Breach (α × σ)}
    {y : Except Breach (α × τ)} (h : Alike R x y) (f : α → β) :
    Alike R (x.map fun (a, s) => (f a, s)) (y.map fun (a, t) => (f a, t)) := by
  cases h with
  | error b => exact .error b
  | ok answer related => exact .ok (f answer) related

theorem Alike.exists_left {α σ τ : Type} {R : σ → τ → Prop} {x : Except Breach (α × σ)} {a : α}
    {t : τ} (h : Alike R x (.ok (a, t))) : ∃ s, x = .ok (a, s) ∧ R s t := by
  cases h
  exact ⟨_, rfl, ‹_›⟩

theorem Alike.exists_right {α σ τ : Type} {R : σ → τ → Prop} {y : Except Breach (α × τ)} {a : α}
    {s : σ} (h : Alike R (.ok (a, s)) y) : ∃ t, y = .ok (a, t) ∧ R s t := by
  cases h
  exact ⟨_, rfl, ‹_›⟩

theorem alike_serveCalls {σ τ : Type} {R : σ → τ → Prop}
    {serve : σ → StoreCall → Except Breach (StoreAnswer × σ)}
    {serve' : τ → StoreCall → Except Breach (StoreAnswer × τ)}
    (step : ∀ s t call, R s t → Alike R (serve s call) (serve' t call)) {s : σ} {t : τ}
    (h : R s t) (calls : List StoreCall) :
    Alike R (serveCalls serve s calls) (serveCalls serve' t calls) := by
  induction calls generalizing s t with
  | nil => exact .ok [] h
  | cons call calls ih =>
    have step' := step s t call h
    rw [serveCalls, serveCalls]
    generalize serve s call = x, serve' t call = y at step'
    cases step' with
    | error b => exact .error b
    | ok answer related => exact (ih related).map (answer :: ·)

namespace StoreQueue

variable {q q' : StoreQueue} {l l' : StoreList}

def serve (q : StoreQueue) : StoreCall → Except Breach (StoreAnswer × StoreQueue)
  | .allocate e => (q.allocate e).map fun (slot, q) => (.slot slot, q)
  | .retire slot => (q.retire slot).map fun (e, q) => (.store e, q)
  | .squash seq => .ok (.dropped (q.squash seq).1, (q.squash seq).2)
  | .clear => .ok (.done, q.clear)

structure Mirrors (q : StoreQueue) (l : StoreList) : Prop where
  holds : q.HoldsOnly (l.stores.map (·.store))
  capacity : l.capacity = q.capacity
  next : l.next = q.tail
  slots : l.stores.map (·.slot) = (List.range l.stores.length).map q.place

namespace Mirrors

theorem ofSize {capacity : Nat} (hpos : 0 < capacity) :
    (ofSize capacity).Mirrors (.ofSize capacity) :=
  ⟨holdsOnly_ofSize hpos, rfl, rfl, rfl⟩

theorem count (h : q.Mirrors l) : q.count = l.stores.length := by
  rw [h.holds.count, List.length_map]

theorem allocate (h : q.Mirrors l) (e : StoreEntry) :
    Alike Mirrors (q.allocate e) (l.allocate e) := by
  by_cases hfull : q.isFull = true
  · have hlength : l.stores.length = l.capacity := by
      rw [h.capacity, ← h.count]
      exact beq_iff_eq.mp hfull
    rw [StoreQueue.allocate, if_pos hfull, StoreList.allocate, if_pos hlength]
    exact .error _
  · have hlength : l.stores.length ≠ l.capacity := by
      rw [h.capacity, ← h.count]
      exact fun heq => hfull (beq_iff_eq.mpr heq)
    obtain ⟨q', hq', -⟩ := h.holds.toHolds.allocate (e := e) hfull
    have hholds := h.holds.allocate hq'
    obtain ⟨-, -, rfl⟩ := allocate_ok hq'
    rw [hq', StoreList.allocate, if_neg hlength, h.next]
    refine .ok _ ⟨by simpa using hholds, h.capacity, by rw [h.capacity]; rfl, ?_⟩
    have htail : q.tail = q.place l.stores.length := by simpa using h.holds.tail
    rw [List.map_append, h.slots, List.length_append, List.length_singleton, List.range_succ,
      List.map_append, htail]
    rfl

theorem retire (h : q.Mirrors l) (slot : Nat) : Alike Mirrors (q.retire slot) (l.retire slot) := by
  rw [StoreList.retire]
  cases hstores : l.stores with
  | nil =>
    have hvacant : q.get slot = none := by
      rw [StoreQueue.get, h.holds.vacant slot (by simp [hstores]), ite_self]
    rw [StoreQueue.retire, hvacant]
    exact .error _
  | cons first rest =>
    have hholds := h.holds
    have hslots := h.slots
    rw [hstores] at hholds hslots
    rw [List.length_cons, List.range_succ_eq_map] at hslots
    obtain ⟨hfirst, hrest⟩ := List.cons.inj hslots
    have hhead : first.slot = q.head := hfirst.trans hholds.head.symm
    change Alike _ _ (if slot = first.slot then _ else _)
    rw [hhead]
    by_cases hslot : slot = q.head
    · obtain ⟨q', hq', -⟩ := hholds.toHolds.retire
      obtain ⟨rest', heq, hrest'⟩ := hholds.retire hq'
      cases heq
      obtain ⟨-, -, rfl⟩ := retire_ok hq'
      rw [if_pos hslot, hslot, hq']
      refine .ok _ ⟨hrest', h.capacity, h.next, hrest.trans ?_⟩
      rw [List.map_map]
      exact List.map_congr_left fun i _ => (q.place_succ i).symm
    · rw [if_neg hslot, StoreQueue.retire]
      split
      · rw [if_neg hslot]
        exact .error _
      · exact .error _

theorem slots_append (h : q.Mirrors l) {kept gone : List QueuedStore}
    (hsplit : kept ++ gone = l.stores) :
    kept.map (·.slot) = (List.range kept.length).map q.place ∧
      gone.head?.elim l.next (·.slot) = q.place kept.length := by
  have hslots := h.slots
  rw [← hsplit, List.map_append, List.length_append, List.range_add, List.map_append] at hslots
  obtain ⟨hkept, hgone⟩ := List.append_inj hslots (by simp)
  refine ⟨hkept, ?_⟩
  cases gone with
  | nil =>
    have htail := h.holds.tail
    rw [List.length_map, ← hsplit, List.append_nil] at htail
    exact h.next.trans htail
  | cons first rest =>
    rw [List.length_cons, List.range_succ_eq_map] at hgone
    exact (List.cons.inj hgone).1

theorem squash (h : q.Mirrors l) (seq : Nat) :
    (q.squash seq).1 = (l.squash seq).1 ∧ (q.squash seq).2.Mirrors (l.squash seq).2 := by
  -- The head stays where it is, so the stores before what is dropped keep their places.
  let P (r : StoreQueue) (es : List StoreEntry) : Prop :=
    r.HoldsOnly es ∧ r.head = q.head ∧ r.capacity = q.capacity
  have hdrop : ∀ r es e, P r (es ++ [e]) → P r.dropYoungest es :=
    fun r es e hr => ⟨hr.1.dropYoungest, hr.2⟩
  obtain ⟨hcount, hholds, hhead, hcapacity⟩ :=
    Holds.squash_invariant (fun r es hr => hr.1.toHolds) hdrop seq ⟨h.holds, rfl, rfl⟩
  have hplace : (q.squash seq).2.place = q.place := by
    funext i
    rw [place, hhead, hcapacity, place]
  rw [← l.stores_squash] at hholds
  obtain ⟨hkept, hgone⟩ := h.slots_append (l.squash_append seq)
  have htail := hholds.tail
  rw [hplace, List.length_map, ← hgone] at htail
  exact ⟨hcount.trans (l.dropped_squash seq).symm, hholds, h.capacity.trans hcapacity.symm,
    htail.symm, hplace ▸ hkept⟩

theorem serve (h : q.Mirrors l) (call : StoreCall) : Alike Mirrors (q.serve call) (l.serve call) := by
  cases call with
  | allocate e => exact (h.allocate e).map StoreAnswer.slot
  | retire slot => exact (h.retire slot).map StoreAnswer.store
  | squash seq =>
    obtain ⟨hcount, hrest⟩ := h.squash seq
    rw [StoreQueue.serve, StoreList.serve, hcount]
    exact .ok _ hrest
  | clear =>
    refine .ok StoreAnswer.done ?_
    rw [StoreQueue.clear, StoreList.clear, h.capacity]
    exact ofSize h.holds.pos

theorem get (h : q.Mirrors l) (slot : Nat) (e : StoreEntry) :
    q.get slot = some e ↔ ⟨slot, e⟩ ∈ l.stores := by
  have hplace : ∀ i (hi : i < l.stores.length), q.place i = l.stores[i].slot := by
    intro i hi
    have hslot := congrArg (·[i]?) h.slots
    simpa [List.getElem?_eq_getElem, hi] using hslot.symm
  constructor
  · intro hget
    rw [StoreQueue.get, Option.ite_none_right_eq_some] at hget
    obtain ⟨i, hi, rfl⟩ : ∃ i < (l.stores.map (·.store)).length, q.place i = slot := by
      by_contra hnone
      push Not at hnone
      rw [h.holds.vacant slot hnone] at hget
      cases hget.2
    rw [h.holds.slots i hi, List.getElem?_eq_getElem hi, List.getElem_map] at hget
    rw [List.length_map] at hi
    rw [hplace i hi, ← Option.some.inj hget.2]
    exact List.getElem_mem hi
  · intro hmem
    obtain ⟨i, hi, hs⟩ := List.getElem_of_mem hmem
    have hslot : q.place i = slot := by rw [hplace i hi, hs]
    have hstore := h.holds.slots i (by simpa using hi)
    rw [hslot, List.getElem?_map, List.getElem?_eq_getElem hi, hs] at hstore
    rw [StoreQueue.get, if_pos (hslot ▸ place_lt h.holds.pos), hstore]
    rfl

end Mirrors

structure Shows (q : StoreQueue) (l : StoreList) : Prop where
  capacity : q.capacity = l.capacity
  room : q.count ≤ q.capacity
  head : q.head < q.capacity
  slots : l.stores.map (·.slot) = (List.range q.count).map fun i => (q.head + i) % q.capacity
  tail : q.tail = (q.head + q.count) % q.capacity
  next : q.tail = l.next
  get : ∀ slot e, q.get slot = some e ↔ ⟨slot, e⟩ ∈ l.stores
  entries : q.entries = l.stores.map (·.store)

theorem Mirrors.shows (h : q.Mirrors l) : q.Shows l where
  capacity := h.capacity.symm
  room := h.holds.count ▸ h.holds.room
  head := h.holds.head_lt h.holds.pos
  slots := h.count ▸ h.slots
  tail := h.holds.count ▸ h.holds.tail
  next := h.next.symm
  get := h.get
  entries := h.holds.entries

def Keeps (q : StoreQueue) (l : StoreList) (call : StoreCall) (q' : StoreQueue) (l' : StoreList) :
    Prop :=
  ∃ kept, kept <:+: l.stores ∧ l'.stores = kept ++ l.added call ∧
    ∀ s ∈ kept, q.get s.slot = some s.store ∧ q'.get s.slot = some s.store

theorem Mirrors.keeps (h : q.Mirrors l) (call : StoreCall) :
    Alike (q.Keeps l call) (q.serve call) (l.serve call) := by
  have hserve := h.serve call
  generalize q.serve call = x, hy : l.serve call = y at hserve
  cases hserve with
  | error b => exact .error b
  | ok answer related =>
    obtain ⟨kept, hkept, hstores⟩ := StoreList.serve_stores hy
    refine .ok answer ⟨kept, hkept, hstores, fun s hs => ⟨?_, ?_⟩⟩
    · exact (h.get _ _).mpr (hkept.subset hs)
    · exact (related.get _ _).mpr (hstores ▸ List.mem_append_left _ hs)

def Reached (capacity : Nat) (calls : List StoreCall) (q : StoreQueue) (l : StoreList) : Prop :=
  ∃ answers, serveCalls serve (ofSize capacity) calls = .ok (answers, q) ∧
    serveCalls StoreList.serve (.ofSize capacity) calls = .ok (answers, l)

variable {capacity : Nat} {calls : List StoreCall}

theorem mirrors_serveCalls (hpos : 0 < capacity) (calls : List StoreCall) :
    Alike Mirrors (serveCalls serve (ofSize capacity) calls)
      (serveCalls StoreList.serve (.ofSize capacity) calls) :=
  alike_serveCalls (fun _ _ call h => h.serve call) (.ofSize hpos) calls

theorem Reached.mirrors (h : Reached capacity calls q l) (hpos : 0 < capacity) : q.Mirrors l := by
  obtain ⟨answers, hq, hl⟩ := h
  have hruns := mirrors_serveCalls hpos calls
  rw [hl] at hruns
  obtain ⟨q', hq', related⟩ := hruns.exists_left
  cases hq.symm.trans hq'
  exact related

theorem Reached.sorted (h : Reached capacity calls q l)
    (hsorted : (calls.filterMap StoreCall.allocated).Pairwise fun a b => a.seq ≤ b.seq) :
    l.stores.Pairwise fun a b => a.store.seq ≤ b.store.seq := by
  obtain ⟨answers, -, hl⟩ := h
  have hwaiting : (l.stores.map (·.store)).Pairwise fun a b => a.seq ≤ b.seq :=
    hsorted.sublist (StoreList.serveCalls_sublist hl)
  rwa [List.pairwise_map] at hwaiting

theorem Mirrors.serveCalls_retire (h : q.Mirrors l) :
    ∃ empty, serveCalls StoreQueue.serve q (l.stores.map (.retire ·.slot)) =
      .ok (l.stores.map (.store ·.store), empty) ∧ empty.size = 0 := by
  have hruns :=
    alike_serveCalls (fun _ _ call h => Mirrors.serve h call) h (l.stores.map (.retire ·.slot))
  rw [l.serveCalls_retire] at hruns
  obtain ⟨empty, hempty, related⟩ := hruns.exists_left
  exact ⟨empty, hempty, related.count⟩

theorem Mirrors.squash_sorted (h : q.Mirrors l)
    (hsorted : l.stores.Pairwise fun a b => a.store.seq ≤ b.store.seq) (seq : Nat) :
    (q.squash seq).1 = (q.entries.filter (seq ≤ ·.seq)).length ∧
      (q.squash seq).2.entries = q.entries.filter (·.seq < seq) ∧
      ∃ empty, serveCalls StoreQueue.serve (q.squash seq).2
          ((l.before seq).map (.retire ·.slot)) = .ok ((l.before seq).map (.store ·.store), empty) ∧
        empty.size = 0 := by
  obtain ⟨hcount, hrest⟩ := h.squash seq
  have hentries : q.entries = l.stores.map (·.store) := h.holds.entries
  have hleft : (l.squash seq).2.stores = l.before seq :=
    rdropWhile_of_sorted (fun s : QueuedStore => s.store.seq) hsorted seq
  refine ⟨?_, ?_, ?_⟩
  · rw [hcount, hentries, List.filter_map, List.length_map]
    exact congrArg List.length (rtakeWhile_of_sorted (fun s : QueuedStore => s.store.seq) hsorted seq)
  · rw [hrest.holds.entries, hleft, hentries, List.filter_map]
    rfl
  · rw [← hleft]
    exact hrest.serveCalls_retire

theorem fifo_refinement (hpos : 0 < capacity) (calls : List StoreCall) :
    Alike Shows (serveCalls serve (ofSize capacity) calls)
        (serveCalls StoreList.serve (.ofSize capacity) calls) ∧
      ∀ q l, Reached capacity calls q l →
        (∀ call, Alike (q.Keeps l call) (q.serve call) (l.serve call)) ∧
        ((calls.filterMap StoreCall.allocated).Pairwise (fun a b => a.seq ≤ b.seq) → ∀ seq,
          (q.squash seq).1 = (q.entries.filter (seq ≤ ·.seq)).length ∧
          (q.squash seq).2.entries = q.entries.filter (·.seq < seq) ∧
          ∃ empty, serveCalls serve (q.squash seq).2 ((l.before seq).map (.retire ·.slot)) =
            .ok ((l.before seq).map (.store ·.store), empty) ∧ empty.size = 0) := by
  refine ⟨(mirrors_serveCalls hpos calls).mono fun _ _ => Mirrors.shows, fun q l h => ⟨?_, ?_⟩⟩
  · exact (h.mirrors hpos).keeps
  · intro hsorted
    exact (h.mirrors hpos).squash_sorted (h.sorted hsorted)

theorem fifo_refinement_wrapped :
    ∃ q, Reached 2 [.allocate ⟨1, 0, 0, 0, .quad⟩, .allocate ⟨2, 0, 0, 0, .quad⟩, .retire 0,
        .allocate ⟨3, 0, 0, 0, .quad⟩] q
        ⟨2, [⟨1, ⟨2, 0, 0, 0, .quad⟩⟩, ⟨0, ⟨3, 0, 0, 0, .quad⟩⟩], 1⟩ ∧
      q.entries = [⟨2, 0, 0, 0, .quad⟩, ⟨3, 0, 0, 0, .quad⟩] ∧
      (q.squash 3).2.entries = [⟨2, 0, 0, 0, .quad⟩] := by
  obtain ⟨halike, hreached⟩ := fifo_refinement (by decide : 0 < 2)
    [.allocate ⟨1, 0, 0, 0, .quad⟩, .allocate ⟨2, 0, 0, 0, .quad⟩, .retire 0,
      .allocate ⟨3, 0, 0, 0, .quad⟩]
  obtain ⟨q, hq, hshows⟩ := halike.exists_left
  have hreach := hreached q _ ⟨_, hq, rfl⟩
  obtain ⟨-, hleft, -⟩ := hreach.2 (by decide) 3
  exact ⟨q, ⟨_, hq, rfl⟩, hshows.entries, hleft.trans (by rw [hshows.entries]; rfl)⟩

end StoreQueue

end EV6
