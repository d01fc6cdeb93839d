import EV6.Proofs.Mbox.Ring
import EV6.Proofs.Storage.Memory

namespace EV6

structure OrderedWrite where
  seq : Nat
  start : Nat
  data : List Byte
  deriving DecidableEq, Repr

def Memory.after (m : Memory) (ws : List OrderedWrite) : Memory :=
  ws.foldl (fun m w => m.write w.start w.data) m

theorem Memory.after_append (m : Memory) (ws vs : List OrderedWrite) :
    m.after (ws ++ vs) = (m.after ws).after vs := List.foldl_append

theorem Width.getLsbD_mask (w : Width) (i : Nat) :
    w.mask.getLsbD i = decide (i < w.bits) := by
  rw [BitVec.getLsbD, w.toNat_mask, Nat.one_shiftLeft, Nat.testBit_two_pow_sub_one]

theorem Word.toBytes_zeroExtend (value : Word) (w : Width) :
    Word.toBytes (value.zeroExtend w) w.bytes = Word.toBytes value w.bytes := by
  refine List.map_congr_left ?_
  intro i hi
  have hi := List.mem_range.mp hi
  refine BitVec.eq_of_getLsbD_eq ?_
  intro j hj
  have hbit : 8 * i + j < w.bits := by
    rw [Width.bits]
    omega
  simp [byteAt, zeroExtend, Width.getLsbD_mask, hbit]

namespace StoreEntry

variable {e : StoreEntry} {m : Memory} {start stop n : Nat}

def toWrite (e : StoreEntry) : OrderedWrite := ⟨e.seq, e.pa.toNat, e.bytes⟩

theorem length_bytes (e : StoreEntry) : e.bytes.length = e.width.bytes := Word.length_toBytes _ _

theorem overlay_bytes (hstop : stop = e.pa.toNat + e.width.bytes) :
    e.overlay stop start (m.bytes start n) = (m.write e.pa.toNat e.bytes).bytes start n := by
  refine List.ext_getElem (by simp [overlay]) ?_
  intro i hi _
  have hlen := e.length_bytes
  simp only [overlay, List.getElem_mapIdx, Memory.getElem_bytes]
  split
  · rename_i hin
    obtain ⟨hle, hlt⟩ := by simpa using hin
    rw [Memory.write_of_mem hle (by omega)]
    simp [bytes, Word.toBytes]
  · rename_i hout
    have hout : e.pa.toNat ≤ start + i → stop ≤ start + i := by simpa using hout
    rw [Memory.write_of_outside (by omega)]

theorem bytes_apart (hstop : stop = e.pa.toNat + e.width.bytes)
    (h : ¬(start < stop ∧ e.pa.toNat < start + n)) :
    (m.write e.pa.toNat e.bytes).bytes start n = m.bytes start n := by
  have hlen := e.length_bytes
  refine Memory.bytes_congr ?_
  intro a hle hlt
  exact Memory.write_of_outside (by omega)

theorem stop_ok (h : e.stop = .ok stop) : stop = e.pa.toNat + e.width.bytes :=
  (Machine.add_eq_ok_iff.mp h).1.symm

end StoreEntry

namespace StoreQueue

variable {es : List StoreEntry} {e : StoreEntry} {m : Memory} {start n seq : Nat}

def Overruns (e : StoreEntry) : Prop := Machine.limit ≤ e.pa.toNat + e.width.bytes

theorem forwardOne_spec (hseq : e.seq < seq) (b : Bool) :
    (∃ b', forwardOne start (start + n) seq ⟨b, m.bytes start n⟩ e =
      .ok ⟨b', (m.write e.pa.toNat e.bytes).bytes start n⟩) ∨
    ∃ breach, forwardOne start (start + n) seq ⟨b, m.bytes start n⟩ e = .error breach ∧
      Overruns e := by
  rw [forwardOne, if_pos hseq]
  cases hstop : e.stop with
  | error breach =>
    refine .inr ⟨breach, rfl, Nat.le_of_not_lt fun hlt => ?_⟩
    rw [StoreEntry.stop, Machine.add, if_pos hlt] at hstop
    cases hstop
  | ok stop =>
    have hsum := StoreEntry.stop_ok hstop
    refine .inl ?_
    change ∃ b', (if (decide (start < stop) && decide (e.pa.toNat < start + n)) = true then
      Except.ok ⟨true, e.overlay stop start (m.bytes start n)⟩
      else Except.ok ⟨b, m.bytes start n⟩ : Except Breach Forwarded) = _
    split
    · exact ⟨true, by rw [StoreEntry.overlay_bytes hsum]⟩
    · rename_i hapart
      exact ⟨b, by rw [StoreEntry.bytes_apart hsum (by simpa using hapart)]⟩

theorem foldlM_forwardOne (hseq : ∀ e ∈ es, e.seq < seq) (b : Bool) :
    (∃ b', es.foldlM (forwardOne start (start + n) seq) ⟨b, m.bytes start n⟩ =
      .ok ⟨b', (m.after (es.map StoreEntry.toWrite)).bytes start n⟩) ∨
    ∃ breach, es.foldlM (forwardOne start (start + n) seq) ⟨b, m.bytes start n⟩ = .error breach ∧
      ∃ e ∈ es, Overruns e := by
  induction es generalizing m b with
  | nil => exact .inl ⟨b, rfl⟩
  | cons e es ih =>
    rw [List.foldlM_cons]
    rcases forwardOne_spec (hseq e List.mem_cons_self) b with ⟨b', hone⟩ | ⟨breach, hone, hover⟩
    · rw [hone]
      refine (ih (fun e he => hseq e (List.mem_cons_of_mem _ he)) b').imp_right ?_
      rintro ⟨breach, hrest, e, he, hover⟩
      exact ⟨breach, hrest, e, List.mem_cons_of_mem _ he, hover⟩
    · rw [hone]
      exact .inr ⟨breach, rfl, e, List.mem_cons_self, hover⟩

theorem foldlM_filter_older (start stop : Nat) (es : List StoreEntry) (f : Forwarded) :
    (es.filter (·.seq < seq)).foldlM (forwardOne start stop seq) f =
      es.foldlM (forwardOne start stop seq) f := by
  induction es generalizing f with
  | nil => rfl
  | cons e es ih =>
    by_cases hseq : e.seq < seq
    · simp only [List.filter_cons, hseq, decide_true, if_true, List.foldlM_cons, ih]
    · have hone : forwardOne start stop seq f e = .ok f := by
        rw [forwardOne, if_neg hseq]
        rfl
      simp only [List.filter_cons, hseq, decide_false, Bool.false_eq_true, if_false,
        List.foldlM_cons, hone]
      exact ih f

theorem Holds.forward_older {q : StoreQueue} (h : q.Holds es) (pa : Word) (seq : Nat) :
    (∃ b, q.forward pa seq (m.bytes pa.toNat n) =
      .ok ⟨b, (m.after ((es.filter (·.seq < seq)).map StoreEntry.toWrite)).bytes pa.toNat n⟩) ∨
    ∃ breach, q.forward pa seq (m.bytes pa.toNat n) = .error breach ∧
      ((∃ e ∈ es, e.seq < seq ∧ Overruns e) ∨ Machine.limit ≤ pa.toNat + n) := by
  rw [StoreQueue.forward, h.entries, Memory.length_bytes]
  by_cases hend : pa.toNat + n < Machine.limit
  · have holder : ∀ e ∈ es.filter (·.seq < seq), e.seq < seq := fun e he =>
      of_decide_eq_true (List.mem_filter.mp he).2
    rw [Machine.add, if_pos hend]
    change (∃ b, es.foldlM (forwardOne pa.toNat (pa.toNat + n) seq) _ = _) ∨
      ∃ breach, es.foldlM (forwardOne pa.toNat (pa.toNat + n) seq) _ = _ ∧ _
    rw [← foldlM_filter_older]
    refine (foldlM_forwardOne holder false).imp_right ?_
    rintro ⟨breach, hfold, e, he, hover⟩
    exact ⟨breach, hfold, .inl ⟨e, (List.mem_filter.mp he).1, holder e he, hover⟩⟩
  · rw [Machine.add, if_neg hend]
    exact .inr ⟨_, rfl, .inr (Nat.le_of_not_lt hend)⟩

end StoreQueue

end EV6
