import EV6.Execution.Dispatch
import EV6.Execution.Retirement
import EV6.Proofs.Cache.Calls
/-!
Everything that can be asked of a core, in any order. The records that come with a request are
arbitrary: they need not have been decoded, or executed on this core.
-/

namespace EV6

inductive Operation where
  | execute (i : Instruction)
  | retire (i : Instruction)
  | poll (pending : List Instruction)
  | fetch (pc : Word)
  | readVirtual (i : Instruction) (va : Word) (width : Width)
  | readPhysical (i : Instruction) (pa : Word) (width : Width)
  | writeVirtual (i : Instruction) (va : Word) (width : Width) (data : Word)
  | writePhysical (i : Instruction) (pa : Word) (width : Width) (data : Word)
  | retireStore (slot : Nat)
  | translate (opcode : Opcode) (va : Word) (access : AccessKind)
  | enterPal (fault : Fault) (seq : Nat) (pc : Word)
  | callPal (returnPc : Word)
  | palReturn (target : Word)
  | writeIndex (index : Nat) (value : Word)
  | acquireLock (va pa : Word)
  | clearLock
  | probeInvalidate (pa : Word)
  | probeShare (pa : Word)
  | memory (call : MemoryHierarchy.Call)
  | squash (seq : Nat)
  | clearQueues
  | setModes (bigEndian palMode : Bool) (mode : ProcessorMode)

namespace Core

variable {π : Type} [BlockDevice π]

def leftBy {α : Type} (o : Outcome (Execution π) Fault α) : Option (Core π) :=
  o.state?.map (·.core)

def operate (c : Core π) : Operation → Option (Core π)
  | .execute i => leftBy (c.execute i)
  | .retire i => leftBy (c.retire i)
  | .poll pending => some (c.poll pending).2
  | .fetch pc => (Core.fetch pc c).state?
  | .readVirtual i va width => leftBy (Execution.readVirtual va width ⟨c, i⟩)
  | .readPhysical i pa width => leftBy (Execution.readPhysical pa width ⟨c, i⟩)
  | .writeVirtual i va width data => leftBy (Execution.writeVirtual va width data ⟨c, i⟩)
  | .writePhysical i pa width data => leftBy (Execution.writePhysical pa width data ⟨c, i⟩)
  | .retireStore slot => (Core.retireStore slot c).state?
  | .translate opcode va access => (Core.translateData opcode va access c).state?
  | .enterPal fault seq pc => some (c.enterPal fault seq pc).2
  | .callPal returnPc => some (c.callPal returnPc)
  | .palReturn target => some (c.palReturn target)
  | .writeIndex index value => some (c.writeIndex index value)
  | .acquireLock va pa => some (c.acquireLock va pa)
  | .clearLock => some c.clearLock
  | .probeInvalidate pa => (Core.probeInvalidate pa c).state?
  | .probeShare pa => (Core.probeShare pa c).state?
  | .memory call => (Core.onMemory call.run c).state?
  | .squash seq => some { c with mbox := c.mbox.squash seq }
  | .clearQueues => some { c with mbox := c.mbox.clear }
  | .setModes bigEndian palMode mode => some { c with bigEndian, palMode, mode }

inductive Reachable (config : Config) (port : π) : Core π → Prop
  | start {c : Core π} (h : Core.ofConfig config port = .ok c) : Reachable config port c
  | step {c t : Core π} (hc : Reachable config port c) (op : Operation)
      (ht : c.operate op = some t) : Reachable config port t

variable {config : Config} {port : π}

theorem Reachable.invariant {Inv : Core π → Prop}
    (start : ∀ {c}, Core.ofConfig config port = .ok c → Inv c)
    (step : ∀ {c t op}, Inv c → c.operate op = some t → Inv t) {c : Core π}
    (h : Reachable config port c) : Inv c := by
  induction h with
  | start h => exact start h
  | step _ op ht ih => exact step ih ht

omit [BlockDevice π] in
theorem leftBy_eq_some {α : Type} {o : Outcome (Execution π) Fault α} {t : Core π}
    (h : leftBy o = some t) : ∃ e, o.state? = some e ∧ e.core = t :=
  Option.map_eq_some_iff.mp h

end Core

end EV6
