import EV6.Proofs.Storage.Memory

namespace EV6.Ram

inductive Request where
  | read (addr : Word) (length : Nat)
  | write (addr : Word) (data : List Byte)
  | load (addr : Word) (image : List Byte)
  deriving DecidableEq, Repr

namespace Request

def addr : Request → Word
  | read addr _ | write addr _ | load addr _ => addr

def length : Request → Nat
  | read _ length => length
  | write _ data | load _ data => data.length

def stored : Request → List Byte
  | read _ _ => []
  | write _ data | load _ data => data

def found (m : Memory) : Request → List Byte
  | read addr length => m.bytes addr.toNat length
  | write _ _ | load _ _ => []

end Request

def serve : Request → Step Ram BusError (List Byte)
  | .read addr length => Ram.read addr length
  | .write addr data => do
    Ram.write addr data
    return []
  | .load addr image => do
    Ram.load addr image
    return []

structure Event where
  request : Request
  answer : Except BusError (List Byte)

def Event.left? (e : Event) (a : Nat) : Option Byte :=
  match e.answer with
  | .ok _ => if e.request.addr.toNat ≤ a then e.request.stored[a - e.request.addr.toNat]? else none
  | .error _ => none

def lastWritten (events : List Event) : Memory := fun a => (events.findSome? (·.left? a)).getD 0

structure History where
  ram : Ram
  /-- What was asked and answered so far, the newest first. -/
  events : List Event

namespace History

def next (h : History) (q : Request) : Except Breach History :=
  match serve q h.ram with
  | .done data ram => .ok ⟨ram, ⟨q, .ok data⟩ :: h.events⟩
  | .failed e ram => .ok ⟨ram, ⟨q, .error e⟩ :: h.events⟩
  | .broken b => .error b

def of (base size : Word) (requests : List Request) : Except Breach History :=
  requests.foldlM next ⟨fresh base size, []⟩

structure Tells (base size : Word) (h : History) : Prop where
  base : h.ram.base = base
  size : h.ram.size = size.toNat
  content : h.ram.content = lastWritten h.events

end History

variable {base size : Word} {q : Request} {events : List Event} {h : History}

theorem inside_iff {addr : Word} {length : Nat} :
    Inside base size.toNat addr length ↔
      base.toNat ≤ addr.toNat ∧ addr.toNat - base.toNat + length ≤ size.toNat := by
  unfold Inside
  omega

theorem allocate_eq (base size : Word) :
    allocate base size.toNat = .ok (fresh base size) ∨
      allocate base size.toNat = .error (.ramAllocation size.toNat) := by
  unfold allocate ByteStore.allocate
  split
  · exact .inr rfl
  · exact .inl rfl

theorem serve_eq (q : Request) (r : Ram) :
    serve q r =
      if Inside r.base r.size q.addr q.length then .done (q.found r.content) (r.put q.addr q.stored)
      else .failed ⟨q.addr, q.length⟩ r := by
  have hwrite (addr : Word) (data : List Byte) :
      (do Ram.write addr data; return [] : Step Ram BusError (List Byte)) r =
        if Inside r.base r.size addr data.length then .done [] (r.put addr data)
        else .failed ⟨addr, data.length⟩ r := by
    rw [Step.bind_apply, write_eq]
    by_cases hinside : Inside r.base r.size addr data.length
    · simp only [if_pos hinside, Step.pure_apply]
    · simp only [if_neg hinside]
  cases q with
  -- a read puts nothing, which leaves the RAM as it is
  | read addr length => exact read_eq r addr length
  | write addr data => exact hwrite addr data
  | load addr image => exact hwrite addr image

theorem lastWritten_ok (q : Request) (data : List Byte) (events : List Event) :
    lastWritten (⟨q, .ok data⟩ :: events) = (lastWritten events).write q.addr.toNat q.stored := by
  funext a
  rw [lastWritten, List.findSome?_cons, Memory.write, Event.left?, List.getD_eq_getElem?_getD]
  by_cases ha : q.addr.toNat ≤ a
  · rw [if_pos ha, if_pos ha]
    cases q.stored[a - q.addr.toNat]? with
    | none => rfl
    | some b => rfl
  · rw [if_neg ha, if_neg ha]
    rfl

theorem tells_fresh (base size : Word) : History.Tells base size ⟨fresh base size, []⟩ where
  base := rfl
  size := rfl
  content := by
    funext a
    unfold content
    split <;> rfl

theorem History.Tells.next (hh : h.Tells base size) (q : Request) :
    ∃ h', h.next q = .ok h' ∧ h'.Tells base size := by
  unfold History.next
  rw [serve_eq]
  by_cases hinside : Inside h.ram.base h.ram.size q.addr q.length
  · rw [if_pos hinside]
    refine ⟨_, rfl, hh.base, hh.size, ?_⟩
    rw [content_put _ hinside.1, hh.content, lastWritten_ok]
  · rw [if_neg hinside]
    exact ⟨_, rfl, hh.base, hh.size, hh.content⟩

theorem History.Tells.foldlM (hh : h.Tells base size) (requests : List Request) :
    ∃ h', requests.foldlM History.next h = .ok h' ∧ h'.Tells base size := by
  induction requests generalizing h with
  | nil => exact ⟨h, rfl, hh⟩
  | cons q rest ih =>
    obtain ⟨h₁, hnext, hh₁⟩ := hh.next q
    rw [List.foldlM_cons, hnext]
    exact ih hh₁

theorem served_from_history (base size : Word) (requests : List Request) (q : Request) :
    (allocate base size.toNat = .ok (fresh base size) ∨
      allocate base size.toNat = .error (.ramAllocation size.toNat)) ∧
    ∃ h, History.of base size requests = .ok h ∧
      if base.toNat ≤ q.addr.toNat ∧ q.addr.toNat - base.toNat + q.length ≤ size.toNat then
        ∃ r, serve q h.ram = .done (q.found (lastWritten h.events)) r
      else serve q h.ram = .failed ⟨q.addr, q.length⟩ h.ram := by
  obtain ⟨h, hof, hh⟩ := (tells_fresh base size).foldlM requests
  refine ⟨allocate_eq base size, h, hof, ?_⟩
  rw [serve_eq, hh.base, hh.size, hh.content]
  simp only [inside_iff]
  split
  · exact ⟨_, rfl⟩
  · rfl

end EV6.Ram
