import EV6.Core.Memory
import EV6.Proofs.Mbox.Levels
/-!
What holds of a core however it goes to memory. A property that is stable holds after every service
of the core if it held before, whether the service fails or not.
-/

namespace EV6

open Step Outcome

namespace Statistics

/-- The counts without those that nothing else is balanced against. -/
def balance (s : Statistics) : Statistics :=
  { s with polls := 0, faults := 0, writebacks := 0, itbMisses := 0, dtbMisses := 0 }

end Statistics

namespace Core

variable {π : Type}

def countLoad (issue : LoadIssue) (c : Core π) : Core π :=
  countAccess issue.access
    (countWhen issue.forwarded (fun s => { s with storeForwards := s.storeForwards + 1 })
      (c.count fun s => { s with loadsIssued := s.loadsIssued + 1 }))

def countStore (access : Access) (c : Core π) : Core π :=
  countAccess access (c.count fun s => { s with storesRetired := s.storesRetired + 1 })

structure Stable (I : Core π → Prop) : Prop where
  mbox : ∀ {c : Core π} mbox, I c → mbox.memory.enabled = c.memory.enabled → I { c with mbox }
  translation : ∀ {c} translation, I c → I { c with translation }
  lock : ∀ {c} lock, I c → I { c with lock }
  flag : ∀ {c} interruptFlag, I c → I { c with interruptFlag }
  latch : ∀ {c} fault opcode write, I c → I { c with iprs := c.iprs.latch fault opcode write }
  tick : ∀ {c} cycles, I c → I { c with iprs := c.iprs.tick cycles }
  count : ∀ {c} f, (∀ s : Statistics, (f s).balance = s.balance) → I c → I (c.count f)
  load : ∀ {c issue}, issue.access.level.ServesData c.memory.enabled → I c → I (c.countLoad issue)
  store : ∀ {c access}, access.level.ServesData c.memory.enabled → I c → I (c.countStore access)
  fetch : ∀ {c hit level}, level.ServesFetch c.memory.enabled → I c → I (c.countFetch hit level)

namespace Stable

variable {I : Core π → Prop} (hI : Stable I)

include hI

theorem onMbox_ends {ε α : Type} {P : EnabledCaches → α → Prop} {x : Step (Mbox π) ε α}
    (hx : ∀ k, Upholds (Mbox.EnabledAre k) True (P k) x) {c : Core π} (hc : I c) :
    (Core.onMbox x c).Ends (fun a t => I t ∧ P t.memory.enabled a) (fun _ t => I t) True := by
  refine (ends_onPart (hx c.memory.enabled c.mbox rfl)).mono ?_ ?_ id
  · rintro a _ ⟨mbox, ⟨hmbox, ha⟩, rfl⟩
    exact ⟨hI.mbox mbox hc hmbox, hmbox ▸ ha⟩
  · rintro _ _ ⟨mbox, hmbox, rfl⟩
    exact hI.mbox mbox hc hmbox

theorem onMbox {ε α : Type} {x : Step (Mbox π) ε α}
    (hx : ∀ k, Upholds (Mbox.EnabledAre k) True (fun _ => True) x) :
    Upholds I True (fun _ => True) (Core.onMbox x) := fun _ hc => hI.onMbox_ends hx hc

theorem onMemory {ε α : Type} {x : Step (MemoryHierarchy π) ε α}
    (hx : ∀ k, Upholds (MemoryHierarchy.EnabledAre k) True (fun _ => True) x) :
    Upholds I True (fun _ => True) (Core.onMemory x) :=
  hI.onMbox fun k => Mbox.enabled_onMemory (hx k)

theorem countWhen (b : Bool) {f : Statistics → Statistics}
    (hf : ∀ s, (f s).balance = s.balance := by intro s; rfl) :
    Upholds I True (fun _ => True) (modify (Core.countWhen b f) : CoreStep π Unit) := by
  refine upholds_modify fun c hc => ?_
  unfold Core.countWhen
  split
  · exact hI.count f hf hc
  · exact hc

theorem raiseData {α : Type} {P : α → Prop} (fault : Fault) (opcode : Opcode) (write : Bool) :
    Upholds I True P (Core.raiseData fault opcode write : CoreStep π α) :=
  Upholds.bind (upholds_modify fun _ hc => hI.latch fault opcode write hc) fun _ _ =>
    upholds_throw _

theorem translate {ε : Type} (va : Word) (access : AccessKind) :
    Upholds I True (fun _ => True) (Core.translate va access : Step (Core π) ε _) :=
  upholds_modifyGet fun _ hc => ⟨hI.translation _ hc, trivial⟩

theorem translateData (opcode : Opcode) (va : Word) (access : AccessKind) :
    Upholds I True (fun _ => True) (Core.translateData opcode va access : CoreStep π Word) := by
  refine (hI.translate va access).bind fun answer _ => ?_
  cases answer with
  | ok pa => exact upholds_pure trivial
  | error fault => exact (hI.countWhen _).bind fun _ _ => hI.raiseData _ _ _

theorem checkAlignment (opcode : Opcode) (va : Word) (width : Width) (write : Bool) :
    Upholds I True (fun _ => True)
      (Core.checkAlignment opcode va width write : CoreStep π Unit) := by
  unfold Core.checkAlignment
  split
  · exact upholds_pure trivial
  · exact hI.raiseData _ _ _

theorem translateFetch (pc : Word) :
    Upholds I True (fun _ => True) (Core.translateFetch pc : CoreStep π Word) := by
  refine upholds_get.bind fun c _ => ?_
  split
  · exact upholds_pure trivial
  · refine (hI.translate pc .fetch).bind fun answer _ => ?_
    cases answer with
    | ok pa => exact upholds_pure trivial
    | error fault => exact (hI.countWhen _).bind fun _ _ => upholds_throw _

theorem poll {c : Core π} (hc : I c) (pending : List Instruction) : I (c.poll pending).2 := by
  have hcount := hI.count (fun s => { s with polls := s.polls + 1 }) (fun _ => rfl) hc
  have htick := hI.tick 1 hcount
  exact hI.mbox (c.mbox.poll pending).2 htick rfl

theorem queueStore (i : Instruction) (va pa : Word) (width : Width) (data : Word) :
    Upholds I True (fun _ => True)
      (Core.onMbox (Mbox.queueStore i va pa width data) : CoreStep π _) :=
  hI.onMbox fun _ => Mbox.enabled_queueStore i va pa width data

variable [BlockDevice π]

theorem fetchWord (pc : Word) :
    Upholds I True (fun _ => True) (Core.fetch pc : CoreStep π Longword) := by
  refine (hI.translateFetch pc).bind fun pa _ => upholds_get.bind fun c _ => ?_
  intro t ht
  refine ends_bind (P := fun (r : Longword × Access) t =>
    I t ∧ r.2.level.ServesFetch t.memory.enabled) ?_ ?_
  · exact ends_mapError (hI.onMbox_ends
      (P := fun k (r : Longword × Access) => r.2.level.ServesFetch k)
      (fun k => Mbox.enabled_onMemory (MemoryHierarchy.enabled_fetch pa)) ht)
  · rintro r u ⟨hu, hlevel⟩
    exact ⟨hI.fetch hlevel hu, trivial⟩

theorem issueLoad (i : Instruction) (va pa : Word) (width : Width) :
    Upholds I True (fun _ => True) (Core.issueLoad i va pa width : CoreStep π Instruction) := by
  intro c hc
  refine ends_bind (P := fun (r : Instruction × LoadIssue) t =>
    I t ∧ r.2.access.level.ServesData t.memory.enabled) ?_ ?_
  · exact ends_mapError (hI.onMbox_ends
      (P := fun k (r : Instruction × LoadIssue) => r.2.access.level.ServesData k)
      (fun k => Mbox.enabled_issueLoad i va pa width) hc)
  · rintro r t ⟨ht, hlevel⟩
    exact ⟨hI.load hlevel ht, trivial⟩

theorem retireStore (slot : Nat) :
    Upholds I True (fun _ => True) (Core.retireStore slot : CoreStep π Unit) := by
  intro c hc
  refine ends_bind (P := fun (r : StoreEntry × Access) t =>
    I t ∧ r.2.level.ServesData t.memory.enabled) ?_ ?_
  · exact ends_mapError (hI.onMbox_ends
      (P := fun k (r : StoreEntry × Access) => r.2.level.ServesData k)
      (fun k => Mbox.enabled_retireStore slot) hc)
  · rintro r t ⟨ht, hlevel⟩
    exact ⟨hI.store hlevel ht, trivial⟩

theorem evictBlock (va : Word) :
    Upholds I True (fun _ => True) (Core.evictBlock va : CoreStep π Unit) := by
  refine upholds_get.bind fun c _ => ?_
  split
  · exact upholds_pure trivial
  · exact ((hI.onMemory fun _ => MemoryHierarchy.enabled_evict _).mapError _).bind fun _ _ =>
      upholds_pure trivial

theorem probeInvalidate (pa : Word) :
    Upholds I True (fun _ => True)
      (Core.probeInvalidate pa : Step (Core π) BusError ProbeResult) := by
  refine (hI.onMemory fun _ => MemoryHierarchy.enabled_probeInvalidate pa).bind fun r _ => ?_
  refine Upholds.bind (upholds_modify fun c hc => ?_) fun _ _ =>
    Upholds.bind (upholds_modify fun c hc => ?_) fun _ _ => upholds_pure trivial
  · unfold countProbe Core.countWhen
    split
    · exact hI.count _ (fun _ => rfl) hc
    · exact hc
  · split
    · exact hI.lock _ hc
    · exact hc

theorem probeShare (pa : Word) :
    Upholds I True (fun _ => True) (Core.probeShare pa : Step (Core π) BusError ProbeResult) := by
  refine (hI.onMemory fun _ => MemoryHierarchy.enabled_probeShare pa).bind fun r _ => ?_
  refine Upholds.bind (upholds_modify fun c hc => ?_) fun _ _ => upholds_pure trivial
  unfold countProbe Core.countWhen
  split
  · exact hI.count _ (fun _ => rfl) hc
  · exact hc

end Stable

end Core

end EV6
