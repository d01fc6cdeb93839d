import EV6.Proofs.Cache.Intact
import EV6.Proofs.Mbox.Access
import EV6.Proofs.Mbox.Queues

namespace EV6

open Step Outcome

theorem StoreQueue.Holds.forward_ok {q : StoreQueue} {es : List StoreEntry} (h : q.Holds es)
    (hes : ∀ e ∈ es, ¬Overruns e) {pa : Word} {block : List Byte}
    (hend : pa.toNat + block.length < Machine.limit) (seq : Nat) :
    ∃ f, q.forward pa seq block = .ok f := by
  obtain ⟨mem, hmem⟩ := Memory.exists_bytes pa.toNat block
  rw [← hmem]
  rcases h.forward_older pa seq with ⟨b, hforward⟩ | ⟨breach, -, ⟨e, he, -, hover⟩ | hover⟩
  · exact ⟨_, hforward⟩
  · exact absurd hover (hes e he)
  · exact absurd hend (Nat.not_lt.mpr hover)

namespace Mbox

def releaseChecked (q : LoadQueue) (slot : Nat) : Except Breach (LoadEntry × LoadQueue) := do
  let _ ← Machine.sub q.count 1
  q.release slot

def deliverChecked (polls : Nat) (q : LoadQueue) (i : Instruction) :
    Except Breach (Option (Instruction × LoadQueue)) :=
  match i.slot with
  | none => .ok none
  | some slot =>
    if (q.get slot).any fun e => e.seq = i.seq && e.readyAt ≤ polls then do
      let (entry, q) ← releaseChecked q slot
      return some (i.delivered entry.raw, q)
    else .ok none

def deliverAllChecked (polls : Nat) : LoadQueue → List Instruction → Except Breach Delivery
  | q, [] => .ok ⟨0, [], q⟩
  | q, i :: rest => do
    match ← deliverChecked polls q i with
    | some (j, q) =>
      let d ← deliverAllChecked polls q rest
      return { d with completed := d.completed + 1, instructions := j :: d.instructions }
    | none =>
      let d ← deliverAllChecked polls q rest
      return { d with instructions := i :: d.instructions }

def pollChecked {π : Type} (m : Mbox π) (pending : List Instruction) :
    Except Breach (Delivery × Mbox π) := do
  let polls ← Machine.add m.polls 1
  let d ← deliverAllChecked polls m.loads pending
  return (d, { m with polls, loads := d.loads })

section Poll

variable {q q' : LoadQueue} {polls : Nat} {i j : Instruction} {pending : List Instruction}

theorem deliverChecked_eq (h : q.Counted) : deliverChecked polls q i = .ok (deliver polls q i) := by
  unfold deliverChecked deliver
  cases i.slot with
  | none => rfl
  | some slot =>
    cases hget : q.get slot with
    | none => simp [hget]
    | some e =>
      have hcount : Machine.sub q.count 1 = .ok (q.count - 1) :=
        Machine.sub_eq_ok_iff.mpr ⟨h.count_pos hget, rfl⟩
      by_cases hready : e.seq = i.seq ∧ e.readyAt ≤ polls
      · simp [hget, hready, releaseChecked, hcount, LoadQueue.release, bind, Except.bind, pure,
          Except.pure]
      · simp [hget, hready]

theorem counted_deliver (h : q.Counted) (hd : deliver polls q i = some (j, q')) : q'.Counted := by
  obtain ⟨⟨slot, e, hslot, hget, -⟩, slot', hslot', rfl⟩ := deliver_eq_some hd
  cases hslot.symm.trans hslot'
  exact h.free hget

theorem deliverAllChecked_eq (h : q.Counted) (pending : List Instruction) :
    deliverAllChecked polls q pending = .ok (deliverAll polls q pending) ∧
      (deliverAll polls q pending).loads.Counted := by
  induction pending generalizing q with
  | nil => exact ⟨rfl, h⟩
  | cons i rest ih =>
    rw [deliverAllChecked, deliverChecked_eq h, deliverAll]
    cases hdeliver : deliver polls q i with
    | none =>
      obtain ⟨hrest, hcounted⟩ := ih h
      exact ⟨by simp [hrest, bind, Except.bind, pure, Except.pure], hcounted⟩
    | some r =>
      obtain ⟨hrest, hcounted⟩ := ih (counted_deliver h hdeliver)
      exact ⟨by simp [hrest, bind, Except.bind, pure, Except.pure], hcounted⟩

end Poll

variable {π : Type} {ok : π → Prop} {config : Config} {m m' : Mbox π} {B : Prop}

structure Intact (ok : π → Prop) (config : Config) (m : Mbox π) : Prop where
  loads : m.loads.Counted
  stores : ∃ es, m.stores.HoldsOnly es ∧ ∀ e ∈ es, ¬StoreQueue.Overruns e
  memory : m.memory.Intact ok config

structure CanLoad (config : Config) (m : Mbox π) : Prop where
  room : m.loads.HasRoom
  clock : ∀ latency ∈ config.latencies, m.polls + latency < Machine.limit

theorem pollChecked_eq (h : m.loads.Counted) (hclock : m.polls + 1 < Machine.limit)
    (pending : List Instruction) : m.pollChecked pending = .ok (m.poll pending) := by
  rw [pollChecked, Machine.add, if_pos hclock]
  change (deliverAllChecked (m.polls + 1) m.loads pending >>= _) = _
  rw [(deliverAllChecked_eq h pending).1]
  rfl

namespace Intact

theorem ofConfig {port : π} (hport : ok port) (hsize : 0 < config.mbox.storeQueue)
    (h : Mbox.ofConfig config port = .ok m) : m.Intact ok config := by
  have hfresh := fresh_ofConfig h
  refine ⟨?_, ⟨[], ?_, by simp⟩, MemoryHierarchy.intact_ofConfig hport hfresh.memory⟩
  · rw [hfresh.loads]
    exact LoadQueue.counted_ofSize _
  · rw [hfresh.stores]
    exact StoreQueue.holdsOnly_ofSize hsize

theorem poll (h : m.Intact ok config) (pending : List Instruction) :
    (m.poll pending).2.Intact ok config :=
  { h with loads := (deliverAllChecked_eq h.loads pending).2 }

theorem pollChecked_eq (h : m.Intact ok config) (hclock : m.polls + 1 < Machine.limit)
    (pending : List Instruction) : m.pollChecked pending = .ok (m.poll pending) :=
  Mbox.pollChecked_eq h.loads hclock pending

theorem squash (h : m.Intact ok config) (seq : Nat) : (m.squash seq).Intact ok config := by
  obtain ⟨es, hholds, hes⟩ := h.stores
  have hfirst := List.rdropWhile_prefix (seq ≤ ·.seq) (l := es)
  exact ⟨h.loads.squash seq, ⟨_, hholds.squash seq, fun e he => hes e (hfirst.subset he)⟩, h.memory⟩

theorem clear (h : m.Intact ok config) : m.clear.Intact ok config := by
  obtain ⟨es, hholds, -⟩ := h.stores
  exact ⟨LoadQueue.counted_ofSize _, ⟨[], StoreQueue.holdsOnly_ofSize hholds.pos, by simp⟩, h.memory⟩

theorem withMemory (h : m.Intact ok config) {memory : MemoryHierarchy π}
    (hmemory : memory.Intact ok config) : { m with memory }.Intact ok config :=
  { h with memory := hmemory }

theorem queueStore_ends {ε : Type} (h : m.Intact ok config) (i : Instruction) (va : Word) {pa : Word}
    {width : Width} (hend : pa.toNat + width.bytes < Machine.limit) (data : Word) :
    (queueStore i va pa width data m : Outcome (Mbox π) ε Instruction).Ends
      (fun _ t => t.Intact ok config) (fun _ _ => False) (m.stores.isFull = true) := by
  rw [queueStore, bind_done (get_apply m)]
  cases ha : m.stores.allocate ⟨i.seq, va, pa, data.zeroExtend width, width⟩ with
  | error breach =>
    unfold StoreQueue.allocate at ha
    split at ha
    · assumption
    · cases ha
  | ok answer =>
    obtain ⟨es, hholds, hes⟩ := h.stores
    refine ⟨h.loads, ⟨_, hholds.allocate ha, fun e he => ?_⟩, h.memory⟩
    rcases List.mem_append.mp he with he | he
    · exact hes e he
    · rw [List.mem_singleton.mp he]
      exact Nat.not_le.mpr hend

end Intact

theorem upholds_onMemory {ε α : Type} {P : α → Prop} {x : Step (MemoryHierarchy π) ε α}
    (hx : Upholds (MemoryHierarchy.Intact ok config) B P x) :
    Upholds (Intact ok config) B P (onMemory x) :=
  hx.onPart (fun _ hm => hm.memory) fun _ _ hm hh => hm.withMemory hh

variable [BlockDevice π] (hd : SizedDevice ok) (hv : config.Valid)

include hd hv

theorem upholds_retireStore (slot : Nat) :
    Upholds (Intact ok config) True (fun _ => True)
      (retireStore slot : Step (Mbox π) BusError _) := by
  intro m hm
  rw [retireStore, bind_done (get_apply m)]
  cases hr : m.stores.retire slot with
  | error breach => trivial
  | ok answer =>
    obtain ⟨entry, stores⟩ := answer
    obtain ⟨es, hholds, hes⟩ := hm.stores
    obtain ⟨rest, rfl, hrest⟩ := hholds.retire hr
    rw [bind_done (check_ok _)]
    dsimp only
    rw [bind_done (set_apply _ _)]
    have hintact : { m with stores }.Intact ok config :=
      ⟨hm.loads, ⟨rest, hrest, fun e he => hes e (List.mem_cons_of_mem _ he)⟩, hm.memory⟩
    refine ((upholds_onMemory (MemoryHierarchy.upholds_write hd hv entry.pa entry.bytes
      fun _ => trivial)).bind fun _ _ => upholds_pure trivial) _ hintact

theorem readOrRelease_intact {slot : Nat} {e : LoadEntry} (hm : m.Intact ok config)
    (hget : m.loads.get slot = some e) {pa : Word} {width : Width}
    (ha : pa.toNat % width.bytes = 0) :
    ((tryCatch (onMemory (MemoryHierarchy.read pa width.bytes)) fun e => do
        releaseLoad slot
        throw e : Step (Mbox π) BusError (List Byte × Access)) m).Ends
      (fun r m' => (∃ h, m' = { m with memory := h }) ∧ m'.Intact ok config ∧
        r.1.length = width.bytes ∧ r.2.latency ∈ config.latencies)
      (fun _ m' => m'.Intact ok config) False := by
  have hline := hv.dcache.lineSize
  have hwithin := hline.within (Nat.dvd_trans width.bytes_dvd_eight hline.eight_dvd) ha
  have hread := MemoryHierarchy.upholds_read (B := False) hd hv pa width.bytes
    (Nat.not_lt.mpr hwithin) m.memory hm.memory
  refine ends_tryCatch (F := fun _ m' =>
    ∃ h, m' = { m with memory := h } ∧ h.Intact ok config) ?_ ?_
  · refine (onMemory_ends hread).mono ?_ (fun _ _ h => h) id
    rintro r _ ⟨h, rfl, hh, hr⟩
    exact ⟨⟨h, rfl⟩, hm.withMemory hh, hr⟩
  · rintro e _ ⟨h, rfl, hh⟩
    rw [bind_done (releaseLoad_done (m := { m with memory := h }) hget)]
    exact { hm.withMemory hh with loads := hm.loads.free hget }

theorem issueLoad_intact (hm : m.Intact ok config) (i : Instruction) (va : Word) {pa : Word}
    {width : Width} (ha : pa.toNat % width.bytes = 0)
    (hend : pa.toNat + width.bytes < Machine.limit) :
    (issueLoad i va pa width m).Ends (fun _ m' => m'.Intact ok config)
      (fun _ m' => m'.Intact ok config) (¬m.CanLoad config) := by
  unfold issueLoad
  obtain ⟨entry, hentry⟩ : ∃ e : LoadEntry, e = ⟨i.seq, va, pa, width, 0, 0⟩ := ⟨_, rfl⟩
  rw [← hentry]
  refine ends_bind ((allocateLoad_ends m entry).mono (fun _ _ h => h) (fun _ _ h => h.elim)
    fun hroom hcan => hroom hcan.room) ?_
  rintro slot _ ⟨hslot, hfree, rfl⟩
  have hget : (m.loads.put slot entry).get slot = some entry :=
    (LoadQueue.get_put hslot entry).trans (if_pos rfl)
  have hput : { m with loads := m.loads.put slot entry }.Intact ok config :=
    { hm with loads := hm.loads.put hslot hfree entry }
  refine ends_bind ((readOrRelease_intact hd hv hput hget ha).mono (fun _ _ h => h)
    (fun _ _ h => h) False.elim) ?_
  rintro ⟨block, access⟩ _ ⟨⟨h, rfl⟩, hread, hlen, hlatency⟩
  obtain ⟨es, hholds, hes⟩ := hm.stores
  have hlen : block.length = width.bytes := hlen
  obtain ⟨f, hforward⟩ := hholds.toHolds.forward_ok hes (hlen.symm ▸ hend) i.seq
  dsimp only
  rw [bind_done (get_apply _), hforward]
  refine (answerLoad_ends (m := ⟨m.loads.put slot entry, m.stores, m.polls, h⟩) hget i access
    f).mono ?_ (fun _ _ h => h.elim) ?_
  · rintro a m' (⟨-, rfl⟩ | ⟨-, readyAt, rfl⟩)
    · exact { hread with loads := hput.loads.free hget }
    · exact { hread with loads := hput.loads.modify slot _ }
  · exact fun hclock hcan => Nat.not_lt.mpr hclock (hcan.clock _ hlatency)

end Mbox

end EV6
