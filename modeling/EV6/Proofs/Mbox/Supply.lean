import EV6.Proofs.Mbox.Fifo
import EV6.Proofs.Mbox.Forwarding

namespace EV6

namespace StoreEntry

variable {e : StoreEntry}

def Covers (e : StoreEntry) (a : Nat) : Prop := e.pa.toNat ≤ a ∧ a < e.pa.toNat + e.width.bytes

instance (e : StoreEntry) (a : Nat) : Decidable (e.Covers a) := inferInstanceAs (Decidable (_ ∧ _))

def Overlaps (e : StoreEntry) (start length : Nat) : Prop :=
  ∃ a, e.Covers a ∧ start ≤ a ∧ a < start + length

def Encloses (e : StoreEntry) (a : Nat) : Prop :=
  e.pa.toNat < a ∧ a < e.pa.toNat + e.width.bytes

theorem getElem?_bytes {a : Nat} (h : e.Covers a) :
    e.bytes[a - e.pa.toNat]? = some (e.data.byteAt (a - e.pa.toNat)) := by
  obtain ⟨hle, hlt⟩ := h
  have hi : a - e.pa.toNat < e.width.bytes := by omega
  simp [bytes, Word.toBytes, hi]

theorem write_apply (m : Memory) (e : StoreEntry) (a : Nat) :
    m.write e.pa.toNat e.bytes a = if e.Covers a then e.data.byteAt (a - e.pa.toNat) else m a :=
  m.write_toBytes e.data e.pa.toNat e.width.bytes a

theorem ends_cross_iff {start length : Nat} :
    start < e.pa.toNat + e.width.bytes ∧ e.pa.toNat < start + length ↔
      e.Overlaps start length ∨ length = 0 ∧ e.Encloses start := by
  have hpos := e.width.bytes_pos
  constructor
  · rintro ⟨hstart, hstop⟩
    by_cases hlength : length = 0
    · exact .inr ⟨hlength, by omega, hstart⟩
    · exact .inl ⟨max start e.pa.toNat, ⟨by omega, by omega⟩, by omega, by omega⟩
  · rintro (⟨a, ⟨hle, hlt⟩, hstart, hstop⟩ | ⟨rfl, hle, hlt⟩)
    · exact ⟨by omega, by omega⟩
    · exact ⟨hlt, hle⟩

end StoreEntry

namespace StoreQueue

variable {q : StoreQueue} {es : List StoreEntry} {e : StoreEntry} {start stop seq : Nat}

def supplier (es : List StoreEntry) (seq a : Nat) : Option StoreEntry :=
  es.reverse.find? fun e => e.seq < seq ∧ e.Covers a

theorem supplier_concat (es : List StoreEntry) (e : StoreEntry) (seq a : Nat) :
    supplier (es ++ [e]) seq a =
      if e.seq < seq ∧ e.Covers a then some e else supplier es seq a := by
  rw [supplier, List.reverse_concat, List.find?_cons]
  by_cases h : e.seq < seq ∧ e.Covers a <;> simp [h, supplier]

theorem covers_of_supplier {a : Nat} (h : supplier es seq a = some e) : e.Covers a := by
  rw [supplier] at h
  have hfound := List.find?_some h
  exact (of_decide_eq_true hfound).2

theorem after_older (m : Memory) (es : List StoreEntry) (seq a : Nat) :
    m.after ((es.filter (·.seq < seq)).map StoreEntry.toWrite) a =
      (supplier es seq a).elim (m a) fun e => e.data.byteAt (a - e.pa.toNat) := by
  induction es using List.reverseRecOn with
  | nil => rfl
  | append_singleton es e ih =>
    rw [List.filter_append, List.map_append, Memory.after_append, supplier_concat]
    by_cases hseq : e.seq < seq
    · have hone : [e].filter (·.seq < seq) = [e] := by simp [hseq]
      have hwrite := e.write_apply (m.after ((es.filter (·.seq < seq)).map StoreEntry.toWrite)) a
      rw [hone]
      change Memory.write _ e.pa.toNat e.bytes a = _
      rw [hwrite, ih]
      by_cases hcovers : e.Covers a <;> simp [hseq, hcovers]
    · have hnone : [e].filter (·.seq < seq) = [] := by simp [hseq]
      rw [hnone, if_neg fun h => hseq h.1]
      exact ih

theorem overlapped_forwardOne {f f' : Forwarded} (h : forwardOne start stop seq f e = .ok f') :
    f'.overlapped = true ↔ f.overlapped = true ∨
      e.seq < seq ∧ start < e.pa.toNat + e.width.bytes ∧ e.pa.toNat < stop := by
  rw [forwardOne] at h
  by_cases hseq : e.seq < seq
  · rw [if_pos hseq] at h
    cases hstop : e.stop with
    | error b =>
      rw [hstop] at h
      cases h
    | ok storeStop =>
      rw [hstop] at h
      change (if (decide (start < storeStop) && decide (e.pa.toNat < stop)) = true then
        Except.ok _ else Except.ok f) = _ at h
      have hsum := StoreEntry.stop_ok hstop
      split at h
      · rename_i hcross
        cases h
        simpa [hseq, ← hsum] using .inr (by simpa using hcross)
      · rename_i hcross
        cases h
        have hcross : ¬(start < storeStop ∧ e.pa.toNat < stop) := by simpa using hcross
        simp [← hsum, hcross]
  · rw [if_neg hseq] at h
    cases h
    simp [hseq]

theorem overlapped_foldlM {f f' : Forwarded}
    (h : es.foldlM (forwardOne start stop seq) f = .ok f') :
    f'.overlapped = true ↔ f.overlapped = true ∨
      ∃ e ∈ es, e.seq < seq ∧ start < e.pa.toNat + e.width.bytes ∧ e.pa.toNat < stop := by
  induction es generalizing f with
  | nil =>
    cases h
    simp
  | cons e es ih =>
    rw [List.foldlM_cons] at h
    cases hone : forwardOne start stop seq f e with
    | error b =>
      rw [hone] at h
      cases h
    | ok mid =>
      rw [hone] at h
      rw [ih h, overlapped_forwardOne hone]
      simp [or_assoc]

theorem Holds.forward_supplied (h : q.Holds es) {pa : Word} {block : List Byte}
    (hend : pa.toNat + block.length < Machine.limit)
    (hes : ∀ e ∈ es, e.seq < seq → e.pa.toNat + e.width.bytes < Machine.limit) :
    ∃ f, q.forward pa seq block = .ok f ∧ f.block.length = block.length ∧
      (∀ i < block.length, f.block[i]? = (supplier es seq (pa.toNat + i)).elim block[i]? fun e =>
        e.bytes[pa.toNat + i - e.pa.toNat]?) ∧
      (f.overlapped = true ↔ ∃ e ∈ es, e.seq < seq ∧
        (e.Overlaps pa.toNat block.length ∨ block.length = 0 ∧ e.Encloses pa.toNat)) := by
  obtain ⟨m, hm⟩ := Memory.exists_bytes pa.toNat block
  obtain ⟨b, hforward⟩ : ∃ b, q.forward pa seq block = .ok
      ⟨b, (m.after ((es.filter (·.seq < seq)).map StoreEntry.toWrite)).bytes pa.toNat
        block.length⟩ := by
    have hends := h.forward_older (m := m) (n := block.length) pa seq
    rw [hm] at hends
    refine hends.resolve_right ?_
    rintro ⟨-, -, ⟨e, he, hseq, hover⟩ | hover⟩
    · exact Nat.not_lt.mpr hover (hes e he hseq)
    · exact Nat.not_lt.mpr hover hend
  refine ⟨_, hforward, Memory.length_bytes _ _ _, fun i hi => ?_, ?_⟩
  · have hbyte : block[i]? = some (m (pa.toNat + i)) := by
      conv_lhs => rw [← hm]
      rw [List.getElem?_eq_getElem (by simpa using hi), Memory.getElem_bytes]
    rw [List.getElem?_eq_getElem (by simpa using hi), Memory.getElem_bytes, after_older, hbyte]
    cases hsupplier : supplier es seq (pa.toNat + i) with
    | none => rfl
    | some e => exact (StoreEntry.getElem?_bytes (covers_of_supplier hsupplier)).symm
  · rw [StoreQueue.forward, h.entries, Machine.add, if_pos hend] at hforward
    have hflag := overlapped_foldlM hforward
    simpa only [Bool.false_eq_true, false_or, StoreEntry.ends_cross_iff] using hflag

variable {capacity : Nat} {calls : List StoreCall} {answers : List StoreAnswer}

theorem forward_byte_exact (hpos : 0 < capacity)
    (hrun : serveCalls serve (ofSize capacity) calls = .ok (answers, q)) {pa : Word}
    {block : List Byte} (hend : pa.toNat + block.length < Machine.limit)
    (hstores : ∀ e ∈ q.entries, e.seq < seq → e.pa.toNat + e.width.bytes < Machine.limit) :
    ∃ f, q.forward pa seq block = .ok f ∧ f.block.length = block.length ∧
      (∀ i < block.length, f.block[i]? =
        (supplier q.entries seq (pa.toNat + i)).elim block[i]? fun e =>
          e.bytes[pa.toNat + i - e.pa.toNat]?) ∧
      (f.overlapped = true ↔ ∃ e ∈ q.entries, e.seq < seq ∧
        (e.Overlaps pa.toNat block.length ∨ block.length = 0 ∧ e.Encloses pa.toNat)) := by
  have hruns := mirrors_serveCalls hpos calls
  rw [hrun] at hruns
  obtain ⟨l, -, hmirrors⟩ := hruns.exists_right
  have hholds := hmirrors.holds.toHolds
  rw [hholds.entries] at hstores ⊢
  exact hholds.forward_supplied hend hstores

theorem forward_byte_exact_partial :
    ∃ q, serveCalls serve (ofSize 4) [.allocate ⟨1, 0x100, 0x100, 0x1111111111111111, .quad⟩,
        .allocate ⟨2, 0x102, 0x102, 0xBBAA, .word⟩, .allocate ⟨9, 0x100, 0x100, 0xFF, .byte⟩] =
        .ok ([.slot 0, .slot 1, .slot 2], q) ∧
      ∃ f, q.forward 0x100 5 [0, 0, 0, 0] = .ok f ∧ f.overlapped = true ∧
        f.block[0]? = some 0x11 ∧ f.block[2]? = some 0xAA := by
  obtain ⟨q, hq, hmirrors⟩ := (mirrors_serveCalls (by decide : 0 < 4)
    [.allocate ⟨1, 0x100, 0x100, 0x1111111111111111, .quad⟩,
      .allocate ⟨2, 0x102, 0x102, 0xBBAA, .word⟩,
      .allocate ⟨9, 0x100, 0x100, 0xFF, .byte⟩]).exists_left
  have hentries := hmirrors.holds.entries
  have hend : (0x100 : Word).toNat + [(0 : Byte), 0, 0, 0].length < Machine.limit := by decide
  have hstores : ∀ e ∈ q.entries, e.seq < 5 → e.pa.toNat + e.width.bytes < Machine.limit := by
    rw [hentries]
    decide
  obtain ⟨f, hf, -, hbytes, hflag⟩ := forward_byte_exact (by decide : 0 < 4) hq hend hstores
  rw [hentries] at hbytes hflag
  have hcross : f.overlapped = true :=
    hflag.mpr ⟨_, List.mem_cons_self, by decide, .inl ⟨0x100, by decide, by decide, by decide⟩⟩
  exact ⟨q, hq, f, hf, hcross, hbytes 0 (by decide), hbytes 2 (by decide)⟩

theorem forward_empty_inside :
    ∃ q, serveCalls serve (ofSize 4) [.allocate ⟨1, 0x100, 0x100, 0, .quad⟩] = .ok ([.slot 0], q) ∧
      q.forward 0x104 5 [] = .ok ⟨true, []⟩ ∧ ¬∃ e ∈ q.entries, e.seq < 5 ∧ e.Overlaps 0x104 0 := by
  obtain ⟨q, hq, hmirrors⟩ := (mirrors_serveCalls (by decide : 0 < 4)
    [.allocate ⟨1, 0x100, 0x100, 0, .quad⟩]).exists_left
  have hentries := hmirrors.holds.entries
  refine ⟨q, hq, ?_, ?_⟩
  · rw [forward, hentries]
    rfl
  · rintro ⟨e, -, -, a, -, hle, hlt⟩
    omega

end StoreQueue

end EV6
