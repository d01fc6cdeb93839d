import EV6.Storage.Port
import EV6.Proofs.Fault.Ends
/-!
Flat memories, and the block devices that behave like one: an access is answered in full or refused,
a refused access changes nothing, and an access that the device `answers` is not refused.
-/

namespace EV6

abbrev Memory := Nat → Byte

namespace Memory

variable {m m' : Memory} {start length a : Nat} {data : List Byte}

def bytes (m : Memory) (start length : Nat) : List Byte :=
  (List.range length).map fun i => m (start + i)

def write (m : Memory) (start : Nat) (data : List Byte) : Memory := fun a =>
  if start ≤ a then data.getD (a - start) (m a) else m a

@[simp] theorem length_bytes (m : Memory) (start length : Nat) :
    (m.bytes start length).length = length := by
  simp [bytes]

theorem getElem_bytes {i : Nat} (h : i < (m.bytes start length).length) :
    (m.bytes start length)[i] = m (start + i) := by
  simp [bytes]

theorem getD_bytes {i : Nat} (h : i < length) (b : Byte) :
    (m.bytes start length).getD i b = m (start + i) := by
  rw [List.getD_eq_getElem?_getD, List.getElem?_eq_getElem (by rw [length_bytes]; exact h),
    Option.getD_some, getElem_bytes]

theorem exists_bytes (start : Nat) (block : List Byte) :
    ∃ m : Memory, m.bytes start block.length = block := by
  refine ⟨fun a => block.getD (a - start) 0, List.ext_getElem (length_bytes _ _ _) ?_⟩
  intro i hi hi'
  rw [getElem_bytes, Nat.add_sub_cancel_left, List.getD_eq_getElem?_getD,
    List.getElem?_eq_getElem hi', Option.getD_some]

theorem bytes_congr (h : ∀ a, start ≤ a → a < start + length → m a = m' a) :
    m.bytes start length = m'.bytes start length := by
  refine List.map_congr_left ?_
  intro i hi
  have hi := List.mem_range.mp hi
  exact h _ (by omega) (by omega)

theorem slice_bytes {offset n : Nat} (h : offset + n ≤ length) :
    Block.slice (m.bytes start length) offset n = m.bytes (start + offset) n := by
  refine List.ext_getElem ?_ ?_
  · rw [Block.length_slice (by simpa using h), length_bytes]
  · intro i hi _
    simp [Block.slice, bytes, Nat.add_assoc]

theorem write_of_lt (h : a < start) : m.write start data a = m a := by
  simp [write, Nat.not_le.mpr h]

theorem write_of_le (h : start + data.length ≤ a) : m.write start data a = m a := by
  have ha : data.length ≤ a - start := by omega
  simp [write, List.getD_eq_getElem?_getD, List.getElem?_eq_none ha]

theorem write_of_mem (h : start ≤ a) (ha : a - start < data.length) :
    m.write start data a = data[a - start] := by
  simp [write, h, List.getD_eq_getElem?_getD, ha]

theorem write_of_outside (h : ¬(start ≤ a ∧ a < start + data.length)) :
    m.write start data a = m a := by
  rcases Nat.lt_or_ge a start with hlt | hge
  · exact write_of_lt hlt
  · exact write_of_le (Nat.le_of_not_lt fun hlt => h ⟨hge, hlt⟩)

theorem write_toBytes (m : Memory) (v : Word) (start n a : Nat) :
    m.write start (Word.toBytes v n) a =
      if start ≤ a ∧ a < start + n then v.byteAt (a - start) else m a := by
  have hlength := Word.length_toBytes v n
  split
  · rename_i hinside
    rw [write_of_mem hinside.1 (by omega)]
    simp [Word.toBytes]
  · rename_i houtside
    exact write_of_outside (by rwa [hlength])

end Memory

theorem Block.getD_splice {block data : List Byte} {offset : Nat}
    (h : offset + data.length ≤ block.length) (i : Nat) (b : Byte) :
    (Block.splice block offset data).getD i b =
      if offset ≤ i then data.getD (i - offset) (block.getD i b) else block.getD i b := by
  have htake : (block.take offset).length = offset := by
    rw [List.length_take, Nat.min_eq_left (by omega)]
  simp only [Block.splice, List.append_assoc, List.getD_eq_getElem?_getD]
  by_cases hi : offset ≤ i
  · rw [if_pos hi, List.getElem?_append_right (by omega), htake]
    by_cases hlt : i - offset < data.length
    · rw [List.getElem?_append_left hlt, List.getElem?_eq_getElem hlt, Option.getD_some,
        Option.getD_some]
    · rw [List.getElem?_append_right (by omega), List.getElem?_drop,
        List.getElem?_eq_none (Nat.le_of_not_lt hlt), Option.getD_none]
      congr 2
      omega
  · rw [if_neg hi, List.getElem?_append_left (by omega), List.getElem?_take_of_lt (by omega)]

open Outcome

structure FlatDevice {π : Type} [BlockDevice π] (content : π → Memory) (ok : π → Prop)
    (answers : Word → Nat → Prop) : Prop where
  read_ends {p : π} (hp : ok p) (addr : Word) (length : Nat) :
    (BlockDevice.readBlock addr length p).Ends
      (fun data p' => ok p' ∧ data = (content p).bytes addr.toNat length ∧ content p' = content p)
      (fun _ p' => ok p' ∧ content p' = content p ∧ ¬answers addr length) False
  write_ends {p : π} (hp : ok p) (addr : Word) (data : List Byte) :
    (BlockDevice.writeBlock addr data p).Ends
      (fun _ p' => ok p' ∧ content p' = (content p).write addr.toNat data)
      (fun _ p' => ok p' ∧ content p' = content p ∧ ¬answers addr data.length) False

structure ExactDevice {π : Type} [BlockDevice π] (content : π → Memory) (ok : π → Prop)
    (answers : Word → Nat → Prop) : Prop extends FlatDevice content ok answers where
  read_answered {p p' : π} {addr : Word} {length : Nat} {data : List Byte} (hp : ok p)
    (h : BlockDevice.readBlock addr length p = .done data p') : answers addr length
  part {addr start : Word} {length n : Nat} (h : answers addr length) (hle : addr.toNat ≤ start.toNat)
    (hend : start.toNat + n ≤ addr.toNat + length) : answers start n

namespace Table

theorem get_foldl_set {α : Type} (data : List α) (t : Table α) (start k a : Nat) :
    ((data.zipIdx k).foldl (fun c (b, i) => c.set (start + i) b) t).get a =
      if start + k ≤ a then data.getD (a - (start + k)) (t.get a) else t.get a := by
  induction data generalizing t k with
  | nil => simp
  | cons b rest ih =>
    rw [List.zipIdx_cons, List.foldl_cons, ih, get_set]
    rcases Nat.lt_trichotomy a (start + k) with hlt | heq | hgt
    · have h₁ : ¬start + (k + 1) ≤ a := by omega
      have h₂ : ¬start + k ≤ a := by omega
      have h₃ : start + k ≠ a := by omega
      rw [if_neg h₁, if_neg h₂, if_neg h₃]
    · subst heq
      rw [if_neg (by omega), if_pos rfl, if_pos (Nat.le_refl _), Nat.sub_self, List.getD_cons_zero]
    · have h₁ : start + (k + 1) ≤ a := by omega
      have h₂ : start + k ≤ a := by omega
      have h₃ : start + k ≠ a := by omega
      have h₄ : a - (start + k) = a - (start + (k + 1)) + 1 := by omega
      rw [if_pos h₁, if_pos h₂, if_neg h₃, h₄, List.getD_cons_succ]

end Table

namespace Ram

def content (r : Ram) : Memory := fun a =>
  if r.base.toNat ≤ a then r.store.content.get (a - r.base.toNat) else 0

def Inside (base : Word) (size : Nat) (addr : Word) (length : Nat) : Prop :=
  base.toNat ≤ addr.toNat ∧ addr.toNat + length ≤ base.toNat + size

instance (base : Word) (size : Nat) (addr : Word) (length : Nat) :
    Decidable (Inside base size addr length) :=
  inferInstanceAs (Decidable (_ ∧ _))

variable {r : Ram} {addr : Word} {length : Nat}

theorem Inside.stop_le (h : Inside r.base r.size addr length) :
    addr.toNat - r.base.toNat + length ≤ r.store.size := by
  obtain ⟨hbase, hend⟩ := h
  rw [size] at hend
  omega

theorem Inside.stop_ok (h : Inside r.base r.size addr length) :
    Machine.add (addr.toNat - r.base.toNat) length =
      .ok (addr.toNat - r.base.toNat + length) :=
  Machine.add_eq_ok_iff.mpr ⟨rfl, Nat.lt_of_le_of_lt h.stop_le r.store.size_lt⟩

theorem offset_of_le (h : r.base.toNat ≤ addr.toNat) :
    r.offset addr length = (do
      let stop ← (Machine.add (addr.toNat - r.base.toNat) length).mapError fun _ => ⟨addr, length⟩
      if stop ≤ r.size then .ok (addr.toNat - r.base.toNat) else .error ⟨addr, length⟩) := by
  have hsub : Machine.sub addr.toNat r.base.toNat = .ok (addr.toNat - r.base.toNat) := if_pos h
  rw [offset, hsub]
  rfl

theorem offset_of_inside (h : Inside r.base r.size addr length) :
    r.offset addr length = .ok (addr.toNat - r.base.toNat) := by
  rw [offset_of_le h.1, h.stop_ok]
  exact if_pos h.stop_le

example : (fresh 0xFFFFFFFFFFFFFFF0 0x100).offset 0xFFFFFFFFFFFFFFF8 0x20 = .ok 8 := rfl

theorem offset_of_outside (h : ¬Inside r.base r.size addr length) :
    r.offset addr length = .error ⟨addr, length⟩ := by
  by_cases hbase : r.base.toNat ≤ addr.toNat
  · have hstop : ¬addr.toNat - r.base.toNat + length ≤ r.size := by
      unfold Inside at h
      omega
    rw [offset_of_le hbase, Machine.add]
    -- the end is too far for the store, or for a number of 64 bits already
    split
    · exact if_neg hstop
    · rfl
  · have hsub : Machine.sub addr.toNat r.base.toNat = .error (.overflow .subtract) := if_neg hbase
    rw [offset, hsub]
    rfl

def put (r : Ram) (addr : Word) (data : List Byte) : Ram :=
  { r with store := r.store.put (addr.toNat - r.base.toNat) data }

theorem content_put (data : List Byte) (h : r.base.toNat ≤ addr.toNat) :
    (r.put addr data).content = r.content.write addr.toNat data := by
  funext a
  have hget := Table.get_foldl_set data r.store.content (addr.toNat - r.base.toNat) 0
    (a - r.base.toNat)
  rw [Nat.add_zero] at hget
  change (if r.base.toNat ≤ a then
    (r.store.put (addr.toNat - r.base.toNat) data).content.get (a - r.base.toNat) else 0) = _
  rw [ByteStore.put, hget, Memory.write]
  by_cases hb : r.base.toNat ≤ a
  · by_cases ha : addr.toNat ≤ a
    · have h₁ : addr.toNat - r.base.toNat ≤ a - r.base.toNat := by omega
      have h₂ : a - r.base.toNat - (addr.toNat - r.base.toNat) = a - addr.toNat := by omega
      simp only [content, if_pos hb, if_pos ha, if_pos h₁, h₂]
    · have h₁ : ¬addr.toNat - r.base.toNat ≤ a - r.base.toNat := by omega
      simp only [content, if_pos hb, if_neg ha, if_neg h₁]
  · have ha : ¬addr.toNat ≤ a := by omega
    simp only [content, if_neg hb, if_neg ha]

theorem read_eq (r : Ram) (addr : Word) (length : Nat) :
    Ram.read addr length r =
      if Inside r.base r.size addr length then .done (r.content.bytes addr.toNat length) r
      else .failed ⟨addr, length⟩ r := by
  simp only [Ram.read, Step.bind_apply, Step.get_apply, Step.ofExcept]
  by_cases h : Inside r.base r.size addr length
  · have hbytes : r.store.bytes (addr.toNat - r.base.toNat) length =
        r.content.bytes addr.toNat length := by
      refine List.map_congr_left fun i _ => ?_
      have hb : r.base.toNat ≤ addr.toNat + i := Nat.le_add_right_of_le h.1
      rw [content, if_pos hb, Nat.sub_add_comm h.1]
    simp only [if_pos h, offset_of_inside h, ByteStore.read, h.stop_ok, Except.bind, bind,
      if_pos h.stop_le, hbytes, Step.check_ok]
  · simp only [if_neg h, offset_of_outside h]

theorem write_eq (r : Ram) (addr : Word) (data : List Byte) :
    Ram.write addr data r =
      if Inside r.base r.size addr data.length then .done () (r.put addr data)
      else .failed ⟨addr, data.length⟩ r := by
  simp only [Ram.write, Step.bind_apply, Step.get_apply, Step.ofExcept]
  by_cases h : Inside r.base r.size addr data.length
  · simp only [if_pos h, offset_of_inside h, ByteStore.write, h.stop_ok, Except.bind, bind,
      if_pos h.stop_le, Step.check_ok, Step.set_apply, put]
  · simp only [if_neg h, offset_of_outside h]

theorem read_ends (r : Ram) (addr : Word) (length : Nat) :
    (Ram.read addr length r).Ends
      (fun data r' => data = r.content.bytes addr.toNat length ∧ r' = r ∧
        Inside r.base r.size addr length)
      (fun _ r' => r' = r ∧ ¬Inside r.base r.size addr length) False := by
  rw [read_eq]
  split
  · rename_i h
    exact ⟨rfl, rfl, h⟩
  · rename_i h
    exact ⟨rfl, h⟩

theorem write_ends (r : Ram) (addr : Word) (data : List Byte) :
    (Ram.write addr data r).Ends
      (fun _ r' => r'.content = r.content.write addr.toNat data ∧ r'.base = r.base ∧
        r'.size = r.size)
      (fun _ r' => r' = r ∧ ¬Inside r.base r.size addr data.length) False := by
  rw [write_eq]
  split
  · rename_i h
    exact ⟨content_put data h.1, rfl, rfl⟩
  · rename_i h
    exact ⟨rfl, h⟩

end Ram

namespace MemoryPort

def content (p : MemoryPort) : Memory := p.ram.content

theorem transfer_ends {α : Type} (access : BlockAccess) {act : Step Ram BusError α}
    {Q : α → Ram → Prop} {E : BusError → Ram → Prop} {p : MemoryPort}
    (h : (act p.ram).Ends Q E False) :
    (transfer access act p).Ends (fun a p' => Q a p'.ram ∧ p'.refuses = p.refuses)
      (fun _ p' => p'.refuses = p.refuses ∧
        (p'.ram = p.ram ∧ p.refuses access = true ∨ ∃ e, E e p'.ram)) False := by
  unfold transfer
  by_cases hr : p.refuses access = true
  · rw [if_pos hr]
    exact ⟨rfl, Or.inl ⟨rfl, hr⟩⟩
  · rw [if_neg hr]
    cases ho : act p.ram with
    | done a r =>
      rw [ho] at h
      exact ⟨h, rfl⟩
    | failed e r =>
      rw [ho] at h
      exact ⟨rfl, Or.inr ⟨e, h⟩⟩
    | broken b =>
      rw [ho] at h
      exact h.elim

theorem flat : FlatDevice content (fun _ => True) fun _ _ => False where
  read_ends {p} _ addr length := by
    refine (transfer_ends (.read addr length) (Ram.read_ends p.ram addr length)).mono ?_ ?_ id
    · rintro data p' ⟨⟨hdata, hram, _⟩, _⟩
      exact ⟨trivial, hdata, congrArg Ram.content hram⟩
    · rintro _ p' ⟨_, ⟨hram, _⟩ | ⟨_, hram, _⟩⟩
      · exact ⟨trivial, congrArg Ram.content hram, id⟩
      · exact ⟨trivial, congrArg Ram.content hram, id⟩
  write_ends {p} _ addr data := by
    refine (transfer_ends (.write addr data) (Ram.write_ends p.ram addr data)).mono ?_ ?_ id
    · rintro _ p' ⟨⟨hcontent, _⟩, _⟩
      exact ⟨trivial, hcontent⟩
    · rintro _ p' ⟨_, ⟨hram, _⟩ | ⟨_, hram, _⟩⟩
      · exact ⟨trivial, congrArg Ram.content hram, id⟩
      · exact ⟨trivial, congrArg Ram.content hram, id⟩

structure Open (base : Word) (size : Nat) (p : MemoryPort) : Prop where
  base : p.ram.base = base
  size : p.ram.size = size
  refuses : ∀ access, p.refuses access = false

theorem flat_of_open (base : Word) (size : Nat) :
    FlatDevice content (Open base size) (Ram.Inside base size) where
  read_ends {p} hp addr length := by
    refine (transfer_ends (.read addr length) (Ram.read_ends p.ram addr length)).mono ?_ ?_ id
    · rintro data p' ⟨⟨hdata, hram, _⟩, href⟩
      exact ⟨⟨by rw [hram, hp.base], by rw [hram, hp.size], by rw [href]; exact hp.refuses⟩, hdata,
        congrArg Ram.content hram⟩
    · rintro _ p' ⟨href, ⟨_, hrefused⟩ | ⟨_, hram, hout⟩⟩
      · rw [hp.refuses] at hrefused
        cases hrefused
      · rw [hp.base, hp.size] at hout
        exact ⟨⟨by rw [hram, hp.base], by rw [hram, hp.size], by rw [href]; exact hp.refuses⟩,
          congrArg Ram.content hram, hout⟩
  write_ends {p} hp addr data := by
    refine (transfer_ends (.write addr data) (Ram.write_ends p.ram addr data)).mono ?_ ?_ id
    · rintro _ p' ⟨⟨hcontent, hbase, hsize⟩, href⟩
      exact ⟨⟨hbase.trans hp.base, hsize.trans hp.size, by rw [href]; exact hp.refuses⟩, hcontent⟩
    · rintro _ p' ⟨href, ⟨_, hrefused⟩ | ⟨_, hram, hout⟩⟩
      · rw [hp.refuses] at hrefused
        cases hrefused
      · rw [hp.base, hp.size] at hout
        exact ⟨⟨by rw [hram, hp.base], by rw [hram, hp.size], by rw [href]; exact hp.refuses⟩,
          congrArg Ram.content hram, hout⟩

theorem exact_of_open (base : Word) (size : Nat) :
    ExactDevice content (Open base size) (Ram.Inside base size) where
  toFlatDevice := flat_of_open base size
  read_answered {p p' addr length data} hp h := by
    have hends := transfer_ends (.read addr length) (Ram.read_ends p.ram addr length)
    rw [show transfer (.read addr length) (Ram.read addr length) p = _ from h] at hends
    obtain ⟨⟨-, -, hinside⟩, -⟩ := hends
    rwa [hp.base, hp.size] at hinside
  part {addr start length n} h hle hend := ⟨Nat.le_trans h.1 hle, Nat.le_trans hend h.2⟩

def sample : MemoryPort := .ofRam ⟨0, .ofSize 8192 (by decide)⟩

theorem open_sample : Open 0 8192 sample := ⟨rfl, rfl, fun _ => rfl⟩

end MemoryPort

end EV6
