import EV6.Proofs.Execution.PalNesting
import EV6.Proofs.Translation.Run

namespace EV6

open Step Outcome

theorem Word.and_not_or_and (w mask : Word) : (w &&& ~~~mask) ||| (w &&& mask) = w := by
  rw [← BitVec.and_or_distrib_left, BitVec.or_comm, BitVec.or_not_self, BitVec.and_allOnes]

theorem Word.and_eq_self {w mask : Word} (h : w &&& ~~~mask = 0) : w &&& mask = w := by
  have hsplit := w.and_not_or_and mask
  rw [h] at hsplit
  exact (BitVec.zero_or).symm.trans hsplit

theorem Word.and_of_merged (v w mask : Word) :
    ((v &&& ~~~mask) ||| (w &&& mask)) &&& mask = w &&& mask := by
  have hlow : v &&& ~~~mask &&& mask = 0 := by
    rw [BitVec.and_assoc, BitVec.and_comm (~~~mask), BitVec.and_not_self]
    exact BitVec.and_zero
  rw [BitVec.and_comm, BitVec.and_or_distrib_left, BitVec.and_comm mask, hlow,
    BitVec.and_comm mask, BitVec.and_assoc, BitVec.and_self]
  exact BitVec.zero_or

theorem InternalRegisters.palBase_latch (r : InternalRegisters) (fault : Fault) (opcode : Opcode)
    (write : Bool) : (r.latch fault opcode write).palBase = r.palBase := by
  unfold latch
  split <;> rfl

theorem InternalRegisters.palBase_tick (r : InternalRegisters) (cycles : Word) :
    (r.tick cycles).palBase = r.palBase := by
  unfold tick
  split <;> rfl

theorem Word.extract_field (b : Byte) {start : Nat} (h : start + 8 ≤ 64) :
    ((b.setWidth 64 : Word) <<< start).extractLsb' start 8 = b := by
  refine BitVec.eq_of_getLsbD_eq fun i hi => ?_
  have hfield : start + i < 64 := by omega
  simp [hi, hfield]

namespace InternalRegister

theorem ofIndex_index (r : InternalRegister) : ofIndex? r.index = some r := by cases r <;> rfl

theorem ofIndex_eq_none {index : Nat} (h : ∀ r : InternalRegister, r.index ≠ index) :
    ofIndex? index = none := by
  cases hr : ofIndex? index with
  | none => rfl
  | some r => exact absurd (index_of_ofIndex hr) (h r)

def stream? : InternalRegister → Option TranslationStream
  | itbEntry | itbInvalidateProcess | itbInvalidateAll | itbInvalidateSingle => some .instruction
  | dtbEntry | dtbInvalidateProcess | dtbInvalidateAll | dtbInvalidateSingle => some .data
  | _ => none

def saved : List InternalRegister :=
  [excAddr, currentMode, palBase, iCtl, mCtl, dtbAsn, processContext, cycleCounter]

end InternalRegister

open InternalRegister

namespace Core

section Moves

variable {π : Type} {r s : InternalRegister} (c : Core π)

theorem readIndex_index (r : InternalRegister) : c.readIndex r.index = c.readRegister r := by
  rw [readIndex, ofIndex_index]

theorem writeIndex_index (r : InternalRegister) (value : Word) :
    c.writeIndex r.index value = c.writeRegister r value := by
  rw [writeIndex, ofIndex_index]

theorem writeIndex_unknown {index : Nat} (h : ∀ r : InternalRegister, r.index ≠ index)
    (value : Word) : c.writeIndex index value = c := by
  rw [writeIndex, ofIndex_eq_none h]

theorem readRegister_writeRegister (hne : s ≠ r) (hcc : ¬(r = cycleControl ∧ s = cycleCounter))
    (value : Word) : (c.writeRegister r value).readRegister s = c.readRegister s := by
  cases r <;> cases s <;> first
    | exact absurd rfl hne
    | exact absurd ⟨rfl, rfl⟩ hcc
    | rfl

theorem buffer_writeRegister {stream : TranslationStream} (h : r.stream? ≠ some stream)
    (value : Word) :
    (c.writeRegister r value).translation.buffer stream = c.translation.buffer stream := by
  cases stream <;> cases r <;> first
    | exact absurd rfl h
    | rfl

theorem writeRegister_frame (r : InternalRegister) (value : Word) :
    { c.writeRegister r value with
      iprs := c.iprs, mode := c.mode, translation := c.translation } = c := by
  cases r <;> rfl

theorem writeRegister_writeRegister (h : r ∈ saved) (first value : Word) :
    (c.writeRegister r first).writeRegister r value = c.writeRegister r value := by
  cases r with
  | cycleCounter =>
    have hcc := Word.and_of_merged first c.iprs.cc InternalRegisters.lowLongword
    exact congrArg (fun low => c.withIprs { c.iprs with
      cc := (value &&& ~~~InternalRegisters.lowLongword) ||| low }) hcc
  | excAddr | currentMode | palBase | iCtl | mCtl | dtbAsn | processContext => rfl
  | _ => exact absurd h (by decide)

def strayBaseBits : Word := c.iprs.palBase &&& ~~~palBaseMask

theorem writeRegister_readRegister (hbase : c.strayBaseBits = 0) (h : r ∈ saved) :
    c.writeRegister r (c.readRegister r) = c := by
  cases r with
  | currentMode =>
    have hmode : ProcessorMode.ofBits (c.mode.toWord <<< 3 >>> 3) = c.mode := by
      cases c.mode <;> rfl
    exact congrArg (fun mode => { c with mode }) hmode
  | palBase =>
    exact congrArg (fun palBase => c.withIprs { c.iprs with palBase }) (Word.and_eq_self hbase)
  | dtbAsn =>
    have hasn : (c.iprs.dtbAsn.setWidth 64 <<< 56).extractLsb' 56 8 = c.iprs.dtbAsn :=
      Word.extract_field _ (by decide)
    exact congrArg (fun dtbAsn => c.withIprs { c.iprs with dtbAsn }) hasn
  | processContext =>
    have hasn : (c.iprs.itbAsn.setWidth 64 <<< 39).extractLsb' 39 8 = c.iprs.itbAsn :=
      Word.extract_field _ (by decide)
    exact congrArg (fun itbAsn => c.withIprs { c.iprs with itbAsn }) hasn
  | cycleCounter =>
    have hcc := c.iprs.cc.and_not_or_and InternalRegisters.lowLongword
    exact congrArg (fun cc => c.withIprs { c.iprs with cc }) hcc
  | excAddr | iCtl | mCtl => rfl
  | _ => exact absurd h (by decide)

theorem strayBaseBits_writeIndex (h : c.strayBaseBits = 0) (index : Nat) (value : Word) :
    (c.writeIndex index value).strayBaseBits = 0 := by
  unfold writeIndex
  split
  · rename_i r _
    cases r with
    | palBase =>
      change value &&& palBaseMask &&& ~~~palBaseMask = 0
      rw [BitVec.and_assoc, BitVec.and_not_self]
      exact BitVec.and_zero
    | _ => exact h
  · exact h

theorem strayBaseBits_palReturn (target : Word) :
    (c.palReturn target).strayBaseBits = c.strayBaseBits := by
  unfold palReturn
  split <;> rfl

theorem strayBaseBits_committed (i : Instruction) :
    (c.committed i).strayBaseBits = c.strayBaseBits := by
  unfold committed
  split
  · rfl
  · unfold commitBranch
    split
    · rfl
    · exact c.strayBaseBits_palReturn i.a
    · split <;> rfl

theorem stable_strayBaseBits (k : Word) : Stable fun c : Core π => c.strayBaseBits = k := by
  apply stable_of_same k
  case latch =>
    exact fun c _ _ _ => congrArg (· &&& ~~~palBaseMask) (InternalRegisters.palBase_latch _ _ _ _)
  case tick =>
    exact fun c _ => congrArg (· &&& ~~~palBaseMask) (InternalRegisters.palBase_tick _ _)
  all_goals exact fun _ _ => rfl

structure MovesAlone (index : Nat) (value : Word) : Prop where
  others : ∀ j, j ≠ index → ¬(index = cycleControl.index ∧ j = cycleCounter.index) →
    (c.writeIndex index value).readIndex j = c.readIndex j
  buffers : ∀ stream, (c.writeIndex index value).translation.buffer stream ≠
    c.translation.buffer stream → ∃ r : InternalRegister, r.index = index ∧ r.stream? = some stream
  ignored : (∀ r : InternalRegister, r.index = index → r = .mmStat ∨ r = .va) →
    c.writeIndex index value = c
  elsewhere : { c.writeIndex index value with
    iprs := c.iprs, mode := c.mode, translation := c.translation } = c

theorem movesAlone_index (r : InternalRegister) (value : Word) :
    MovesAlone c r.index value where
  others j hj hcc := by
    rw [c.writeIndex_index]
    unfold readIndex
    split
    · rename_i s hs
      have hindex : s.index = j := index_of_ofIndex hs
      refine c.readRegister_writeRegister (fun heq => hj ?_) (fun hcount => hcc ?_) value
      · rw [← hindex, heq]
      · rw [← hindex, hcount.1, hcount.2]
        exact ⟨rfl, rfl⟩
    · rfl
  buffers stream hchanged := by
    refine ⟨r, rfl, Decidable.byContradiction fun hother => hchanged ?_⟩
    rw [c.writeIndex_index]
    exact c.buffer_writeRegister hother value
  ignored honly := by
    rw [c.writeIndex_index]
    rcases honly r rfl with rfl | rfl <;> rfl
  elsewhere := by
    rw [c.writeIndex_index]
    exact c.writeRegister_frame r value

theorem movesAlone_unknown {index : Nat} (h : ∀ r : InternalRegister, r.index ≠ index)
    (value : Word) : MovesAlone c index value := by
  have hkept := c.writeIndex_unknown h value
  refine ⟨fun j _ _ => ?_, fun stream hchanged => ?_, fun _ => hkept, ?_⟩
  · rw [hkept]
  · rw [hkept] at hchanged
    exact absurd rfl hchanged
  · rw [hkept]

theorem movesAlone (index : Nat) (value : Word) : MovesAlone c index value := by
  by_cases h : ∃ r : InternalRegister, r.index = index
  · obtain ⟨r, rfl⟩ := h
    exact c.movesAlone_index r value
  · exact c.movesAlone_unknown (not_exists.mp h) value

structure PutsBack (r : InternalRegister) : Prop where
  kept : c.writeIndex r.index (c.readIndex r.index) = c
  restored : ∀ value, (c.writeIndex r.index value).writeIndex r.index (c.readIndex r.index) = c

theorem putsBack (hbase : c.strayBaseBits = 0) (h : r ∈ saved) :
    PutsBack c r where
  kept := by
    rw [c.readIndex_index, c.writeIndex_index]
    exact c.writeRegister_readRegister hbase h
  restored value := by
    rw [c.readIndex_index, c.writeIndex_index, writeIndex_index, c.writeRegister_writeRegister h]
    exact c.writeRegister_readRegister hbase h

end Moves

variable {π : Type} [BlockDevice π] {config : Config} {port : π} {c t : Core π}

theorem strayBaseBits_operate {op : Operation} (hc : c.strayBaseBits = 0)
    (ht : c.operate op = some t) : t.strayBaseBits = 0 := by
  have hstable := stable_strayBaseBits (π := π) 0
  by_cases hservice : op.Service
  · exact hstable.service hservice hc ht
  · cases op with
    | execute i =>
      refine Execution.stable_left (I := fun d => d.strayBaseBits = 0) (hstable.execute
        (fun _ _ _ _ hd => hd) (fun _ d hd => d.strayBaseBits_writeIndex hd _ _) hc) ht
    | retire i =>
      refine Execution.stable_left (I := fun d => d.strayBaseBits = 0) (hstable.retire i
        (J := fun d => d.strayBaseBits = 0) (fun d hd => ?_) hc) ht
      exact (d.strayBaseBits_committed i).trans hd
    | writeIndex index value =>
      cases ht
      exact c.strayBaseBits_writeIndex hc index value
    | palReturn target =>
      cases ht
      exact (c.strayBaseBits_palReturn target).trans hc
    | enterPal | callPal | setModes =>
      cases ht
      exact hc
    | _ => exact absurd trivial hservice

theorem Reachable.strayBaseBits (h : Reachable config port c) : c.strayBaseBits = 0 := by
  refine h.invariant (fun hstart => ?_) strayBaseBits_operate
  rw [Core.strayBaseBits, (fresh_ofConfig hstart).palBase]
  rfl

theorem register_moves (h : Reachable config port c) :
    (∀ index value, MovesAlone c index value) ∧ ∀ r ∈ saved, PutsBack c r :=
  ⟨movesAlone c, fun _ => c.putsBack h.strayBaseBits⟩

theorem register_moves_palBase :
    ∃ core : Core MemoryPort, ofConfig Config.stock MemoryPort.sample = .ok core ∧
      (core.writeIndex palBase.index (.allOnes 64)).readIndex palBase.index = palBaseMask ∧
      MovesAlone (core.writeIndex palBase.index (.allOnes 64)) itbEntry.index 0x101 ∧
      PutsBack (core.writeIndex palBase.index (.allOnes 64)) palBase := by
  have hcore : ofConfig Config.stock MemoryPort.sample = .ok _ := rfl
  have hreach := (Reachable.start hcore).step (.writeIndex palBase.index (.allOnes 64)) rfl
  obtain ⟨hmoves, hback⟩ := register_moves hreach
  exact ⟨_, hcore, rfl, hmoves _ _, hback _ (by decide)⟩

end Core

end EV6
