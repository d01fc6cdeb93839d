import EV6.Proofs.Cache.FlatMemory
import EV6.Proofs.Mbox.Forwarding
import EV6.Proofs.Mbox.Queues

namespace EV6

open Outcome Step

namespace MemoryHierarchy

variable {π : Type} {content : π → Memory} {ok : π → Prop} {answers : Word → Nat → Prop}
  {h : MemoryHierarchy π} {m : Memory} [BlockDevice π]

omit [BlockDevice π] in
theorem Shows.not_crosses (hm : h.Shows content ok m) {addr : Word} {width : Width}
    (ha : addr.toNat % width.bytes = 0) : ¬h.Crosses addr width.bytes :=
  not_crosses_of_aligned hm.sound
    (Nat.dvd_trans width.bytes_dvd_eight hm.sound.lineSize.eight_dvd) ha

end MemoryHierarchy

namespace Mbox

structure Fresh {π : Type} (config : Config) (port : π) (m : Mbox π) : Prop where
  memory : MemoryHierarchy.ofConfig config port = .ok m.memory
  loads : m.loads = .ofSize config.mbox.loadQueue
  stores : m.stores = .ofSize config.mbox.storeQueue

theorem fresh_ofConfig {π : Type} {config : Config} {port : π} {m : Mbox π}
    (h : ofConfig config port = .ok m) : Fresh config port m := by
  obtain ⟨_, hmemory, h⟩ := ConfigFailure.bind_eq_ok h
  obtain ⟨_, hloads, h⟩ := ConfigFailure.ofBreach_then h
  obtain ⟨_, hstores, h⟩ := ConfigFailure.ofBreach_then h
  cases h
  exact ⟨hmemory, LoadQueue.build_ok hloads, StoreQueue.build_ok hstores⟩

variable {π : Type} [BlockDevice π] {content : π → Memory} {ok : π → Prop}
  {answers : Word → Nat → Prop} {m : Mbox π} {mem : Memory} {es : List StoreEntry}

structure LoadFits (m : Mbox π) (pa : Word) (width : Width) : Prop where
  room : m.loads.HasRoom
  reach : pa.toNat + width.bytes < Machine.limit
  stores : ∀ e ∈ m.stores.entries, ¬StoreQueue.Overruns e
  clock : ∀ data access h,
    MemoryHierarchy.read pa width.bytes m.memory = .done (data, access) h →
      m.polls + access.latency < Machine.limit

structure Loaded (content : π → Memory) (ok : π → Prop) (mem : Memory) (raw : Word)
    (i : Instruction) (m : Mbox π) (j : Instruction) (m' : Mbox π) : Prop where
  memory : m'.memory.Shows content ok mem
  stores : m'.stores = m.stores
  loads : ∀ slot e, m'.loads.get slot = some e →
    m.loads.get slot = some e ∨ e.seq = i.seq ∧ e.raw = raw
  kept : ∀ slot e, m.loads.get slot = some e → m'.loads.get slot = some e
  answer : j = i.delivered raw ∨
    ∃ slot e, j = { i with slot := some slot } ∧ m'.loads.get slot = some e ∧ e.seq = i.seq ∧
      e.raw = raw

omit [BlockDevice π] in
theorem allocateLoad_ends (m : Mbox π) (entry : LoadEntry) :
    (allocateLoad entry m : Outcome (Mbox π) BusError Nat).Ends
      (fun slot m' => slot < m.loads.slots.length ∧ m.loads.get slot = none ∧
        m' = { m with loads := m.loads.put slot entry })
      (fun _ _ => False) (¬m.loads.HasRoom) := by
  rw [allocateLoad, bind_done (get_apply m)]
  cases h : m.loads.allocate entry with
  | error breach => exact LoadQueue.not_hasRoom_of_allocate h
  | ok answer =>
    obtain ⟨slot, loads⟩ := answer
    obtain ⟨hslot, hfree, rfl⟩ := LoadQueue.allocate_ok h
    exact ⟨hslot, hfree, rfl⟩

omit [BlockDevice π] in
theorem releaseLoad_done {ε : Type} {slot : Nat} {e : LoadEntry} (h : m.loads.get slot = some e) :
    (releaseLoad slot m : Outcome (Mbox π) ε Unit) =
      .done () { m with loads := m.loads.free slot } := by
  rw [releaseLoad, bind_done (get_apply m), LoadQueue.release_ok h]
  rfl

omit [BlockDevice π] in
theorem onMemory_ends {α : Type} {x : Step (MemoryHierarchy π) BusError α}
    {Q : α → MemoryHierarchy π → Prop} {E : BusError → MemoryHierarchy π → Prop} {B : Prop}
    (hx : (x m.memory).Ends Q E B) :
    (onMemory x m).Ends (fun a m' => ∃ h, m' = { m with memory := h } ∧ Q a h)
      (fun e m' => ∃ h, m' = { m with memory := h } ∧ E e h) B := by
  refine (ends_onPart hx).mono ?_ ?_ id
  · rintro a _ ⟨h, ha, rfl⟩
    exact ⟨h, rfl, ha⟩
  · rintro e _ ⟨h, he, rfl⟩
    exact ⟨h, rfl, he⟩

theorem readOrRelease_ends (hd : FlatDevice content ok answers)
    (hm : m.memory.Shows content ok mem) {slot : Nat} {e : LoadEntry}
    (hget : m.loads.get slot = some e) {pa : Word} {width : Width}
    (ha : pa.toNat % width.bytes = 0) :
    ((tryCatch (onMemory (MemoryHierarchy.read pa width.bytes)) fun e => do
        releaseLoad slot
        throw e : Step (Mbox π) BusError (List Byte × Access)) m).Ends
      (fun r m' => ∃ h, m' = { m with memory := h } ∧ h.Shows content ok mem ∧
        r.1 = mem.bytes pa.toNat width.bytes ∧
        MemoryHierarchy.read pa width.bytes m.memory = .done r h)
      (fun _ _ => ¬m.memory.Served answers pa width.bytes) False := by
  refine ends_tryCatch (F := fun _ m' =>
    (∃ h, m' = { m with memory := h }) ∧ ¬m.memory.Served answers pa width.bytes) ?_ ?_
  · refine (onMemory_ends (hm.read_ends hd pa width.bytes).with_done).mono ?_ ?_ ?_
    · rintro r _ ⟨h, rfl, hread, hshows, hr⟩
      exact ⟨h, rfl, hshows, hr, hread⟩
    · rintro e _ ⟨h, rfl, hserved⟩
      exact ⟨⟨h, rfl⟩, hserved⟩
    · exact hm.not_crosses ha
  · rintro e _ ⟨⟨h, rfl⟩, hserved⟩
    rw [bind_done (releaseLoad_done (m := { m with memory := h }) hget)]
    exact hserved

omit [BlockDevice π] in
theorem answerLoad_ends {slot : Nat} {entry : LoadEntry} (hget : m.loads.get slot = some entry)
    (i : Instruction) (access : Access) (f : StoreQueue.Forwarded) :
    (answerLoad i slot access f m : Outcome (Mbox π) BusError (Instruction × LoadIssue)).Ends
      (fun a m' =>
        (a.1 = i.delivered (Word.ofBytes f.block) ∧ m' = { m with loads := m.loads.free slot }) ∨
        (a.1 = { i with slot := some slot } ∧ ∃ readyAt, m' =
          { m with
            loads := m.loads.modify slot fun e => { e with raw := Word.ofBytes f.block, readyAt } }))
      (fun _ _ => False) (Machine.limit ≤ m.polls + access.latency) := by
  unfold answerLoad
  split
  · rw [bind_done (releaseLoad_done hget)]
    exact .inl ⟨rfl, rfl⟩
  · rw [bind_done (get_apply m)]
    by_cases hclock : m.polls + access.latency < Machine.limit
    · rw [Machine.add, if_pos hclock]
      exact .inr ⟨rfl, _, rfl⟩
    · rw [Machine.add, if_neg hclock]
      exact Nat.le_of_not_lt hclock

omit [BlockDevice π] in
theorem Loaded.of_answer {h : MemoryHierarchy π} {slot : Nat} {entry : LoadEntry}
    {i j : Instruction} {raw : Word} {m' : Mbox π} (hshows : h.Shows content ok mem)
    (hslot : slot < m.loads.slots.length) (hfree : m.loads.get slot = none)
    (hseq : entry.seq = i.seq)
    (ha : (j = i.delivered raw ∧ m' = ⟨(m.loads.put slot entry).free slot, m.stores, m.polls, h⟩) ∨
      (j = { i with slot := some slot } ∧ ∃ readyAt, m' =
        ⟨(m.loads.put slot entry).modify slot fun e => { e with raw, readyAt },
          m.stores, m.polls, h⟩)) :
    Loaded content ok mem raw i m j m' := by
  rcases ha with ⟨hj, rfl⟩ | ⟨hj, readyAt, rfl⟩
  · refine ⟨hshows, rfl, fun s e he => .inl ?_, fun s e he => ?_, .inl hj⟩
    · rwa [LoadQueue.free_put hslot hfree] at he
    · rwa [LoadQueue.free_put hslot hfree]
  · refine ⟨hshows, rfl, fun s e he => ?_, fun s e he => ?_,
      .inr ⟨slot, { entry with raw, readyAt }, hj, ?_, hseq, rfl⟩⟩
    · rw [LoadQueue.get_modify_put hslot] at he
      split at he
      · cases he
        exact .inr ⟨hseq, rfl⟩
      · exact .inl he
    · have hne : slot ≠ s := by
        rintro rfl
        rw [hfree] at he
        cases he
      rw [LoadQueue.get_modify_put hslot, if_neg hne, he]
    · rw [LoadQueue.get_modify_put hslot, if_pos rfl]

def olderValue (mem : Memory) (es : List StoreEntry) (seq : Nat) (pa : Word) (width : Width) :
    Word :=
  let older := es.filter (·.seq < seq)
  Word.ofBytes ((mem.after (older.map StoreEntry.toWrite)).bytes pa.toNat width.bytes)

theorem issueLoad_older_ends (hd : FlatDevice content ok answers)
    (hm : m.memory.Shows content ok mem) (hq : m.stores.Holds es) (i : Instruction) (va : Word)
    {pa : Word} {width : Width} (ha : pa.toNat % width.bytes = 0) :
    (issueLoad i va pa width m).Ends
      (fun a m' => Loaded content ok mem (olderValue mem es i.seq pa width) i m a.1 m')
      (fun _ _ => ¬m.memory.Served answers pa width.bytes) (¬m.LoadFits pa width) := by
  unfold issueLoad
  obtain ⟨entry, hentry⟩ : ∃ e : LoadEntry, e = ⟨i.seq, va, pa, width, 0, 0⟩ := ⟨_, rfl⟩
  rw [← hentry]
  refine ends_bind ((allocateLoad_ends m entry).mono (fun _ _ h => h) (fun _ _ h => h.elim)
    fun hroom hfits => hroom hfits.room) ?_
  rintro slot _ ⟨hslot, hfree, rfl⟩
  have hget : (m.loads.put slot entry).get slot = some entry :=
    (LoadQueue.get_put hslot entry).trans (if_pos rfl)
  refine ends_bind ((readOrRelease_ends (m := { m with loads := m.loads.put slot entry }) hd hm
    hget ha).mono (fun _ _ h => h) (fun _ _ h => h) False.elim) ?_
  rintro ⟨block, access⟩ _ ⟨h, rfl, hshows, hblock, hread⟩
  obtain rfl : block = _ := hblock
  dsimp only
  rw [bind_done (get_apply _)]
  rcases hq.forward_older pa i.seq with ⟨b, hforward⟩ | ⟨breach, hforward, hover⟩
  · rw [hforward]
    refine (answerLoad_ends (m := ⟨m.loads.put slot entry, m.stores, m.polls, h⟩) hget i access
      ⟨b, _⟩).mono ?_ (fun _ _ h => h.elim) ?_
    · exact fun a m' ha => .of_answer hshows hslot hfree (congrArg LoadEntry.seq hentry) ha
    · exact fun hclock hfits => Nat.not_lt.mpr hclock (hfits.clock _ _ _ hread)
  · rw [hforward]
    rintro hfits
    rcases hover with ⟨e, he, -, hover⟩ | hend
    · exact hfits.stores e (hq.entries.symm ▸ he) hover
    · exact Nat.not_lt.mpr hend hfits.reach

theorem issueLoad_ends (hd : FlatDevice content ok answers) (hm : m.memory.Shows content ok mem)
    (hq : m.stores.Holds es) {i : Instruction} (hseq : ∀ e ∈ es, e.seq < i.seq) (va : Word)
    {pa : Word} {width : Width} (ha : pa.toNat % width.bytes = 0) :
    (issueLoad i va pa width m).Ends
      (fun a m' => Loaded content ok mem
        (Word.ofBytes ((mem.after (es.map StoreEntry.toWrite)).bytes pa.toNat width.bytes))
        i m a.1 m')
      (fun _ _ => ¬m.memory.Served answers pa width.bytes) (¬m.LoadFits pa width) := by
  have hall : es.filter (·.seq < i.seq) = es :=
    List.filter_eq_self.mpr fun e he => decide_eq_true (hseq e he)
  have hends := issueLoad_older_ends hd hm hq i va ha
  unfold olderValue at hends
  rwa [hall] at hends

omit [BlockDevice π] in
theorem queueStore_done {ε : Type} (hq : m.stores.Holds es) (hfull : m.stores.isFull = false)
    (i : Instruction) (va pa : Word) (width : Width) (data : Word) :
    ∃ stores, (queueStore i va pa width data m : Outcome (Mbox π) ε Instruction) =
        .done { i with slot := some m.stores.tail } { m with stores } ∧
      stores.head = m.stores.head ∧
      stores.Holds (es ++ [⟨i.seq, va, pa, data.zeroExtend width, width⟩]) := by
  obtain ⟨stores, hallocate, hholds⟩ := hq.allocate (Bool.eq_false_iff.mp hfull)
  obtain ⟨-, -, hstores⟩ := StoreQueue.allocate_ok hallocate
  refine ⟨stores, ?_, by rw [hstores], hholds⟩
  rw [queueStore, bind_done (get_apply m), hallocate]
  rfl

omit [BlockDevice π] in
theorem queueStore_ends (hq : m.stores.Holds es) (i : Instruction) (va pa : Word) (width : Width)
    (data : Word) :
    (queueStore i va pa width data m : Outcome (Mbox π) BusError Instruction).Ends
      (fun j m' => (∃ slot, j = { i with slot := some slot }) ∧
        ∃ stores, m' = { m with stores } ∧
          stores.Holds (es ++ [⟨i.seq, va, pa, data.zeroExtend width, width⟩]))
      (fun _ _ => False) (m.stores.isFull = true) := by
  cases hfull : m.stores.isFull with
  | true =>
    rw [queueStore, bind_done (get_apply m), StoreQueue.allocate, if_pos hfull]
    rfl
  | false =>
    obtain ⟨stores, hdone, -, hholds⟩ :=
      queueStore_done (ε := BusError) hq hfull i va pa width data
    rw [hdone]
    exact ⟨⟨_, rfl⟩, stores, rfl, hholds⟩

theorem retireStore_ends (hd : FlatDevice content ok answers)
    (hm : m.memory.Shows content ok mem) {e : StoreEntry} (hq : m.stores.Holds (e :: es))
    (ha : e.pa.toNat % e.width.bytes = 0) :
    (retireStore m.stores.head m).Ends
      (fun _ m' => ∃ stores h, m' = { m with stores, memory := h } ∧ stores.Holds es ∧
        h.Shows content ok (mem.write e.pa.toNat e.bytes))
      (fun _ _ => ¬m.memory.Served answers e.pa e.width.bytes) False := by
  rw [retireStore, bind_done (get_apply m)]
  obtain ⟨stores, hretire, hholds⟩ := hq.retire
  rw [hretire, bind_done (check_ok _)]
  dsimp only
  rw [bind_done (set_apply _ _)]
  have hlen := e.length_bytes
  refine ends_bind ((onMemory_ends (m := { m with stores }) (hm.write_ends hd e.pa e.bytes)).mono
    (fun _ _ h => h) ?_ ?_) ?_
  · rintro _ _ ⟨h, -, hserved⟩
    exact hlen ▸ hserved
  · rw [hlen]
    exact hm.not_crosses ha
  · rintro _ _ ⟨h, rfl, hshows⟩
    exact ⟨stores, h, rfl, hholds, hshows⟩

end Mbox

end EV6
