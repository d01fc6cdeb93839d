import Mathlib.Logic.Relation
import EV6.Proofs.Core.Apart
import EV6.Proofs.Execution.Safety
import EV6.Proofs.Execution.Stable
/-!
Entry to PALcode and the return from it, one inside the other to any depth. A handler may do any
work of its own, if it keeps the address it is to return to when it lets another one in.
-/

namespace EV6

open Step Outcome

namespace InternalRegisters

theorem excAddr_latch (r : InternalRegisters) (fault : Fault) (opcode : Opcode) (write : Bool) :
    (r.latch fault opcode write).excAddr = r.excAddr := by
  unfold latch
  split <;> rfl

theorem excAddr_tick (r : InternalRegisters) (cycles : Word) :
    (r.tick cycles).excAddr = r.excAddr := by
  unfold tick
  split <;> rfl

end InternalRegisters

theorem InternalRegister.index_of_ofIndex {r : InternalRegister} {index : Nat}
    (h : ofIndex? index = some r) : r.index = index := by
  unfold ofIndex? at h
  have hfound := List.find?_some h
  exact beq_iff_eq.mp hfound

namespace Core

variable {π : Type} {c d t : Core π}

def palState (c : Core π) : Bool × Word := (c.palMode, c.iprs.excAddr)

theorem stable_palState (k : Bool × Word) : Stable fun c : Core π => c.palState = k := by
  apply stable_of_same k
  case latch =>
    exact fun c _ _ _ => congrArg (Prod.mk c.palMode) (InternalRegisters.excAddr_latch _ _ _ _)
  case tick => exact fun c _ => congrArg (Prod.mk c.palMode) (InternalRegisters.excAddr_tick _ _)
  all_goals exact fun _ _ => rfl

theorem palState_writeIndex (c : Core π) {index : Nat} (value : Word)
    (h : index ≠ InternalRegister.excAddr.index) :
    (c.writeIndex index value).palState = c.palState := by
  unfold writeIndex
  split
  · rename_i r hr
    have hindex : r.index = index := InternalRegister.index_of_ofIndex hr
    cases r with
    | excAddr => exact absurd hindex.symm h
    | _ => rfl
  · rfl

theorem palState_committed (c : Core π) {i : Instruction} (hcall : i.mnemonic ≠ .pal .call)
    (hret : i.mnemonic ≠ .pal .ret) : (c.committed i).palState = c.palState := by
  unfold committed
  split
  · rfl
  · unfold commitBranch
    split
    · exact absurd ‹_› hcall
    · exact absurd ‹_› hret
    · split <;> rfl

end Core

def Instruction.transferring (i : Instruction) (target : Word) : Instruction :=
  ({ i with state := .waitingRetirement }).resolved true target

def Operation.SparesPal : Operation → Prop
  | .execute i => i.mnemonic = .pal .writeRegister →
      PalOp.registerIndex i ≠ InternalRegister.excAddr.index
  | .retire i => i.mnemonic ≠ .pal .call ∧ i.mnemonic ≠ .pal .ret
  | .writeIndex index _ => index ≠ InternalRegister.excAddr.index
  | .enterPal .. | .callPal _ | .palReturn _ | .setModes .. => False
  | _ => True

namespace Core

variable {π : Type} [BlockDevice π] {c d t : Core π}

theorem palState_operate {op : Operation} (hop : op.SparesPal) (ht : c.operate op = some t) :
    t.palState = c.palState := by
  have hstable := stable_palState (π := π) c.palState
  by_cases hservice : op.Service
  · exact hstable.service hservice rfl ht
  · cases op with
    | execute i =>
      refine Execution.stable_left (I := fun d => d.palState = c.palState)
        (hstable.execute (fun _ _ _ _ hd => hd) (fun hm d hd => ?_) rfl) ht
      exact (d.palState_writeIndex _ (hop hm)).trans hd
    | retire i =>
      refine Execution.stable_left (I := fun d => d.palState = c.palState)
        (hstable.retire i (J := fun d => d.palState = c.palState) (fun d hd => ?_) rfl) ht
      exact (d.palState_committed hop.1 hop.2).trans hd
    | writeIndex index value =>
      cases ht
      exact c.palState_writeIndex value hop
    | enterPal | callPal | palReturn | setModes => exact hop.elim
    | _ => exact absurd trivial hservice

def Meanwhile : Core π → Core π → Prop :=
  Relation.ReflTransGen fun c t => ∃ op : Operation, op.SparesPal ∧ c.operate op = some t

theorem Meanwhile.refl (c : Core π) : Meanwhile c c := Relation.ReflTransGen.refl

theorem Meanwhile.palState (h : Meanwhile c t) : t.palState = c.palState := by
  induction h with
  | refl => rfl
  | tail _ hstep ih =>
    obtain ⟨op, hop, ht⟩ := hstep
    exact (palState_operate hop ht).trans ih

theorem execute_pal {i : Instruction} {op : PalOp} (hm : i.mnemonic = .pal op)
    (hallowed : (Mnemonic.pal op).isPalOnly = true → c.palMode = true) :
    c.execute i = op.execute ⟨c, { i with state := .waitingRetirement }⟩ := by
  change Execution.dispatch i.mnemonic ⟨c, { i with state := .waitingRetirement }⟩ = _
  unfold Execution.dispatch
  rw [bind_done (get_apply _), hm]
  split
  · rename_i hrefused
    simp only [Bool.and_eq_true, Bool.not_eq_true'] at hrefused
    rw [hallowed hrefused.1] at hrefused
    cases hrefused.2
  · rfl

theorem execute_call_iff {i : Instruction} (hm : i.mnemonic = .pal .call) {e : Execution π} :
    c.execute i = .done () e ↔ ∃ offset target, PalOp.callOffset i.function c.mode = some offset ∧
      PalOp.callTarget c.iprs.palBase offset i.function = .ok target ∧
      e = ⟨c, i.transferring target⟩ := by
  rw [execute_pal hm nofun]
  change PalOp.enterCall _ = _ ↔ _
  unfold PalOp.enterCall
  rw [bind_done (get_apply _)]
  constructor
  · intro he
    cases hoffset : PalOp.callOffset i.function c.mode with
    | none =>
      simp only [hoffset] at he
      cases he
    | some offset =>
      simp only [hoffset] at he
      cases htarget : PalOp.callTarget c.iprs.palBase offset i.function with
      | error b =>
        rw [htarget] at he
        cases he
      | ok target =>
        rw [htarget] at he
        cases he
        exact ⟨offset, target, rfl, htarget, rfl⟩
  · rintro ⟨offset, target, hoffset, htarget, rfl⟩
    simp only [hoffset]
    rw [htarget]
    rfl

theorem execute_ret {i : Instruction} (hm : i.mnemonic = .pal .ret) (hpal : c.palMode = true) :
    c.execute i = .done () ⟨c, i.transferring i.registerTarget⟩ := execute_pal hm fun _ => hpal

theorem execute_readExcAddr {i : Instruction} (hm : i.mnemonic = .pal .readRegister)
    (hindex : PalOp.registerIndex i = InternalRegister.excAddr.index) (hpal : c.palMode = true) :
    c.execute i = .done () ⟨c, ({ i with state := .waitingRetirement }).withInt c.iprs.excAddr⟩ := by
  rw [execute_pal hm fun _ => hpal]
  change Outcome.done ()
    (Execution.mk c (Instruction.withInt _ (c.readIndex (PalOp.registerIndex i)))) = _
  rw [hindex]
  rfl

theorem execute_writeExcAddr {i : Instruction} (hm : i.mnemonic = .pal .writeRegister)
    (hindex : PalOp.registerIndex i = InternalRegister.excAddr.index) (hpal : c.palMode = true) :
    c.execute i = .done () ⟨c.withIprs { c.iprs with excAddr := i.b },
      { i with state := .waitingRetirement }⟩ := by
  rw [execute_pal hm fun _ => hpal]
  change Outcome.done () (Execution.mk (c.writeIndex (PalOp.registerIndex i) i.b) _) = _
  rw [hindex]
  rfl

omit [BlockDevice π] in
theorem commitBranch_call {i : Instruction} (hm : i.mnemonic = .pal .call) (outcome : BranchOutcome)
    (c : Core π) : c.commitBranch i outcome = c.callPal i.nextPc := by
  unfold commitBranch
  rw [hm]

omit [BlockDevice π] in
theorem commitBranch_ret {i : Instruction} (hm : i.mnemonic = .pal .ret) (outcome : BranchOutcome)
    (c : Core π) : c.commitBranch i outcome = c.palReturn i.a := by
  unfold commitBranch
  rw [hm]

theorem retire_transferring (c : Core π) {i : Instruction} (target : Word) {op : PalOp}
    (hm : i.mnemonic = .pal op) (hop : op = .call ∨ op = .ret) :
    (c.retire (i.transferring target)).Ends
      (fun _ e => e.core = ((c.commitLock i.lock).commitBranch (i.transferring target)
        ⟨true, target⟩).count (.countRetired i.mnemonic))
      (fun _ _ => False) False := by
  have hloads : i.mnemonic.loads = false := by
    rcases hop with rfl | rfl <;> rw [hm] <;> rfl
  have hstores : i.mnemonic.stores = false := by
    rcases hop with rfl | rfl <;> rw [hm] <;> rfl
  have hready : (i.transferring target).isReady = true := by
    change (true && !(i.mnemonic.loads && i.slot.isSome)) = true
    rw [hloads]
    rfl
  refine (c.retire_idle (i := i.transferring target) hstores).mono (fun _ e he => he)
    (fun _ _ h => h) fun hunfinished => ?_
  rw [hready] at hunfinished
  cases hunfinished

theorem getLsbD_of_aligned {pc : Word} (h : pc.toNat % 4 = 0) {k : Nat} (hk : k < 2) :
    pc.getLsbD k = false := by
  rw [BitVec.getLsbD, Nat.testBit_eq_decide_div_mod_eq, decide_eq_false_iff_not]
  rcases Nat.lt_succ_iff_lt_or_eq.mp hk with hzero | rfl
  · obtain rfl : k = 0 := Nat.lt_one_iff.mp hzero
    omega
  · omega

omit [BlockDevice π] in
theorem getLsbD_returnAddress (c : Core π) (pc : Word) :
    (c.returnAddress pc).getLsbD 0 = c.palMode := by
  unfold returnAddress
  split
  · rename_i hpal
    rw [hpal, BitVec.getLsbD_or]
    exact Bool.or_true _
  · rename_i hpal
    rw [eq_false_of_ne_true hpal, BitVec.getLsbD_and]
    exact Bool.and_false _

omit [BlockDevice π] in
theorem getLsbD_returnAddress_succ (c : Core π) (pc : Word) {k : Nat} (hk : k + 1 < 64) :
    (c.returnAddress pc).getLsbD (k + 1) = pc.getLsbD (k + 1) := by
  have hone : (1 : Word).getLsbD (k + 1) = false := by simp [BitVec.getLsbD_one]
  unfold returnAddress
  split
  · rw [BitVec.getLsbD_or, hone, Bool.or_false]
  · rw [BitVec.getLsbD_and, BitVec.getLsbD_not, hone, decide_eq_true hk, Bool.not_false,
      Bool.true_and, Bool.and_true]

omit [BlockDevice π] in
theorem target_returnAddress (c : Core π) {pc : Word} (h : pc.toNat % 4 = 0) :
    c.returnAddress pc &&& ~~~3 = pc := by
  refine (LineSize.and_not_mask _ 2).trans (BitVec.eq_of_getLsbD_eq fun k hk => ?_)
  rw [BitVec.getLsbD_shiftLeft, BitVec.getLsbD_ushiftRight, decide_eq_true hk, Bool.true_and]
  by_cases hlow : k < 2
  · rw [decide_eq_true hlow, getLsbD_of_aligned h hlow]
    rfl
  · obtain ⟨j, rfl⟩ := Nat.exists_eq_add_of_le (Nat.le_of_not_lt hlow)
    rw [decide_eq_false hlow, Nat.add_sub_cancel_left, Nat.add_comm 2 j]
    exact c.getLsbD_returnAddress_succ pc (Nat.add_comm 2 j ▸ hk)

omit [BlockDevice π] in
theorem palMode_palReturn (c : Core π) (target : Word) :
    (c.palReturn target).palMode = target.getLsbD 0 := by
  unfold palReturn
  split
  · rename_i hpal
    exact hpal.symm
  · rename_i hpal
    exact (eq_false_of_ne_true hpal).symm

def pendingMisses (c : Core π) : Option Word × Option Word :=
  (c.translation.itb.pending, c.translation.dtb.pending)

omit [BlockDevice π] in
theorem pendingMisses_palReturn (c : Core π) (target : Word) :
    (c.palReturn target).pendingMisses =
      if target.getLsbD 0 then c.pendingMisses else (none, none) := by
  unfold palReturn
  split <;> rfl

theorem retire_call (c : Core π) {i : Instruction} (hm : i.mnemonic = .pal .call) (target : Word) :
    (c.retire (i.transferring target)).Ends
      (fun _ e => e.core.palState = (true, c.returnAddress i.nextPc)) (fun _ _ => False) False := by
  have hcall : ((c.commitLock i.lock).callPal i.nextPc).palState =
      (true, c.returnAddress i.nextPc) := by
    cases i.lock <;> rfl
  refine (c.retire_transferring target hm (.inl rfl)).mono (fun _ e he => ?_) (fun _ _ h => h) id
  rw [he, commitBranch_call (i := i.transferring target) hm]
  exact hcall

theorem retire_ret (c : Core π) {i : Instruction} (hm : i.mnemonic = .pal .ret) (target : Word) :
    (c.retire (i.transferring target)).Ends
      (fun _ e => e.core.palMode = i.a.getLsbD 0 ∧
        e.core.pendingMisses = if i.a.getLsbD 0 then c.pendingMisses else (none, none))
      (fun _ _ => False) False := by
  have hlock : (c.commitLock i.lock).pendingMisses = c.pendingMisses := by
    cases i.lock <;> rfl
  refine (c.retire_transferring target hm (.inr rfl)).mono (fun _ e he => ?_) (fun _ _ h => h) id
  rw [he, commitBranch_ret (i := i.transferring target) hm, ← hlock]
  exact ⟨palMode_palReturn _ _, pendingMisses_palReturn _ _⟩

end Core

inductive PalEntry where
  | fault (fault : Fault) (i : Instruction)
  | call (i : Instruction)

namespace PalEntry

def instruction : PalEntry → Instruction
  | fault _ i => i
  | call i => i

def resumption : PalEntry → Word
  | fault _ i => i.pc
  | call i => i.nextPc

def Aligned (entry : PalEntry) : Prop := entry.instruction.pc.toNat % 4 = 0

theorem Aligned.resumption {entry : PalEntry} (h : entry.Aligned) :
    entry.resumption.toNat % 4 = 0 := by
  cases entry with
  | fault _ i => exact h
  | call i =>
    change i.pc.toNat % 4 = 0 at h
    change (i.pc + 4).toNat % 4 = 0
    rw [BitVec.toNat_add, show (4 : Word).toNat = 4 from rfl]
    omega

end PalEntry

namespace Core

variable {π : Type} [BlockDevice π] {c d t : Core π} {entry : PalEntry}

inductive Enters : PalEntry → Core π → Core π → Prop
  | fault {c : Core π} (fault : Fault) (i : Instruction) :
      Enters (.fault fault i) c (c.enterPal fault i.seq i.pc).2
  | call {c u : Core π} {i : Instruction} {e t : Execution π} (hm : i.mnemonic = .pal .call)
      (he : c.execute i = .done () e) (hu : Meanwhile e.core u)
      (ht : u.retire e.instruction = .done () t) : Enters (.call i) c t.core

theorem Enters.palState (h : Enters entry c t) :
    t.palState = (true, c.returnAddress entry.resumption) := by
  cases h with
  | fault => rfl
  | @call _ u i e _ hm he hu ht =>
    obtain ⟨_, target, -, -, rfl⟩ := (execute_call_iff hm).mp he
    have hends := u.retire_call hm target
    rw [ht] at hends
    have hmode := congrArg Prod.fst hu.palState
    refine hends.trans (congrArg (Prod.mk true) ?_)
    unfold returnAddress
    rw [show u.palMode = c.palMode from hmode]
    rfl

inductive Leaves : Core π → Core π → Prop
  | ret {c u : Core π} {i : Instruction} {e t : Execution π} (hm : i.mnemonic = .pal .ret)
      (ha : i.a = c.iprs.excAddr) (he : c.execute i = .done () e) (hu : Meanwhile e.core u)
      (ht : u.retire e.instruction = .done () t) : Leaves c t.core

/-- A handler at work, with the value of the register that it has saved. It may let another one in
when it has saved it, and then the register is not its own before it has written that value back. -/
inductive Serves : PalEntry → Core π → Option Word → Bool → Core π → Prop
  | enter {entry : PalEntry} {c t : Core π} (ha : entry.Aligned) (ht : Enters entry c t) :
      Serves entry c none true t
  | work {entry : PalEntry} {c d t : Core π} {saved : Option Word} {own : Bool}
      (hd : Serves entry c saved own d) {op : Operation} (hop : op.SparesPal)
      (ht : d.operate op = some t) : Serves entry c saved own t
  | save {entry : PalEntry} {c d : Core π} {saved : Option Word} (hd : Serves entry c saved true d)
      {i : Instruction} {e : Execution π} (hm : i.mnemonic = .pal .readRegister)
      (hindex : PalOp.registerIndex i = InternalRegister.excAddr.index)
      (he : d.execute i = .done () e) : Serves entry c (some e.instruction.dest.bits) true e.core
  | nest {entry inner : PalEntry} {c d e t : Core π} {value : Word} {saved : Option Word} {own : Bool}
      (hd : Serves entry c (some value) own d) (he : Serves inner d saved true e)
      (ht : Leaves e t) : Serves entry c (some value) false t
  | restore {entry : PalEntry} {c d : Core π} {value : Word} {own : Bool}
      (hd : Serves entry c (some value) own d) {i : Instruction} {e : Execution π}
      (hm : i.mnemonic = .pal .writeRegister)
      (hindex : PalOp.registerIndex i = InternalRegister.excAddr.index) (hb : i.b = value)
      (he : d.execute i = .done () e) : Serves entry c (some value) true e.core

structure Kept (entry : PalEntry) (c : Core π) (saved : Option Word) (own : Bool) (d : Core π) :
    Prop where
  aligned : entry.Aligned
  palMode : d.palMode = true
  own : own = true → d.iprs.excAddr = c.returnAddress entry.resumption
  saved : ∀ value, saved = some value → value = c.returnAddress entry.resumption

variable {saved : Option Word} {own : Bool}

omit [BlockDevice π] in
theorem Kept.of_palState (h : Kept entry c saved own d) (ht : t.palState = d.palState) :
    Kept entry c saved own t := by
  obtain ⟨hmode, haddress⟩ := Prod.ext_iff.mp ht
  exact ⟨h.aligned, hmode.trans h.palMode, fun hown => haddress.trans (h.own hown), h.saved⟩

theorem Kept.leaves (h : Kept entry c saved true d) (ht : Leaves d t) : t.palMode = c.palMode := by
  cases ht with
  | @ret u i e t hm ha he _ ht =>
    rw [execute_ret hm h.palMode] at he
    cases he
    have hends := u.retire_ret hm i.registerTarget
    rw [ht] at hends
    rw [hends.1, ha, h.own rfl, getLsbD_returnAddress]

theorem Serves.kept (h : Serves entry c saved own d) : Kept entry c saved own d := by
  induction h with
  | enter ha ht =>
    obtain ⟨hmode, haddress⟩ := Prod.ext_iff.mp ht.palState
    exact ⟨ha, hmode, fun _ => haddress, nofun⟩
  | work _ hop ht ih => exact ih.of_palState (palState_operate hop ht)
  | save _ hm hindex he ih =>
    rw [execute_readExcAddr hm hindex ih.palMode] at he
    cases he
    refine ⟨ih.aligned, ih.palMode, ih.own, fun value hvalue => ?_⟩
    cases hvalue
    exact ih.own rfl
  | nest _ _ ht ih ihInner =>
    -- The inner handler was entered in PAL mode, so it leaves into it. The register is still that of
    -- the inner one; only the saved value is the handler's own.
    exact ⟨ih.aligned, (ihInner.leaves ht).trans ih.palMode, nofun, ih.saved⟩
  | restore _ hm hindex hb he ih =>
    rw [execute_writeExcAddr hm hindex ih.palMode] at he
    cases he
    exact ⟨ih.aligned, ih.palMode, fun _ => hb.trans (ih.saved _ rfl), ih.saved⟩

theorem pal_return_inverts_entry (h : Serves entry c saved true d) {i : Instruction}
    (hm : i.mnemonic = .pal .ret) (ha : i.a = d.iprs.excAddr) :
    ∃ e, d.execute i = .done () e ∧ e.instruction.branch = some ⟨true, entry.resumption⟩ ∧
      ∀ u : Core π, ∃ t, u.retire e.instruction = .done () t ∧
        t.core.palMode = c.palMode ∧
        t.core.pendingMisses = if c.palMode then u.pendingMisses else (none, none) := by
  have hkept := h.kept
  have haddress : i.a = c.returnAddress entry.resumption := ha.trans (hkept.own rfl)
  refine ⟨_, execute_ret hm hkept.palMode, ?_, fun u => ?_⟩
  · have htarget : i.registerTarget = entry.resumption := by
      rw [Instruction.registerTarget, haddress, c.target_returnAddress hkept.aligned.resumption]
    exact congrArg (fun target => some (BranchOutcome.mk true target)) htarget
  · obtain ⟨_, t, ht, hmode, hmisses⟩ := (u.retire_ret hm i.registerTarget).exists_done
    rw [haddress, getLsbD_returnAddress] at hmode hmisses
    exact ⟨t, ht, hmode, hmisses⟩

def palInstruction (op : PalOp) (function : Longword) (value : Word) : Instruction :=
  { Instruction.ofMnemonic (.pal op) 1 with
    pc := 0x8000
    function
    first := .int value
    second := .register (.int value) }

def refusedStore : PalEntry := .fault .opcodeReserved (palInstruction .store 0 0)

theorem pal_return_inverts_entry_nested :
    ∃ (core d : Core MemoryPort) (value : Word), ofConfig Config.stock MemoryPort.sample = .ok core ∧
      Serves refusedStore core (some value) true d ∧
      (palInstruction .ret 0 0x8000).a = d.iprs.excAddr ∧
      ∃ e, d.execute (palInstruction .ret 0 0x8000) = .done () e ∧
        e.instruction.branch = some ⟨true, 0x8000⟩ ∧
        ∀ u : Core MemoryPort, ∃ t, u.retire e.instruction = .done () t ∧
          t.core.palMode = core.palMode ∧
          t.core.pendingMisses = if core.palMode then u.pendingMisses else (none, none) := by
  obtain ⟨core, hcore, save, hsave, hvalue, hbase⟩ :
      ∃ core : Core MemoryPort, ofConfig Config.stock MemoryPort.sample = .ok core ∧
        ∃ save, (core.enterPal .opcodeReserved 1 0x8000).2.execute
            (palInstruction .readRegister 0x600 0) = .done () save ∧
          0x8000 = save.instruction.dest.bits ∧ save.core.iprs.palBase = 0 :=
    ⟨_, rfl, _, rfl, rfl, rfl⟩
  have hentered : Serves refusedStore core none true _ := .enter rfl (.fault _ _)
  have hsaved := hentered.save rfl rfl hsave
  have hoffset : PalOp.callOffset 0x80 save.core.mode = some 0x3000 := rfl
  obtain ⟨target, htarget⟩ := Execution.callTarget_ok
    (show save.core.iprs.palBase.toNat ≤ _ from hbase ▸ Nat.zero_le _) hoffset
  have hcall := (execute_call_iff (i := palInstruction .call 0x80 0) rfl).mpr
    ⟨_, target, hoffset, htarget, rfl⟩
  obtain ⟨_, called, hcalled, -⟩ :=
    (save.core.retire_call (i := palInstruction .call 0x80 0) rfl target).exists_done
  have hinner : Serves (.call (palInstruction .call 0x80 0)) save.core none true called.core :=
    .enter rfl (.call rfl hcall (.refl _) hcalled)
  have hret := execute_ret (i := palInstruction .ret 0 called.core.iprs.excAddr) rfl
    hinner.kept.palMode
  obtain ⟨_, left, hleft, -⟩ := (called.core.retire_ret
    (i := palInstruction .ret 0 called.core.iprs.excAddr) rfl _).exists_done
  have hnested := hsaved.nest hinner (.ret rfl rfl hret (.refl _) hleft)
  have hwrite := execute_writeExcAddr (i := palInstruction .writeRegister 0x600 0x8000) rfl rfl
    hnested.kept.palMode
  have hrestored := hnested.restore (i := palInstruction .writeRegister 0x600 0x8000) rfl rfl hvalue
    hwrite
  exact ⟨core, _, _, hcore, hrestored, rfl, pal_return_inverts_entry hrestored rfl rfl⟩

end Core

end EV6
