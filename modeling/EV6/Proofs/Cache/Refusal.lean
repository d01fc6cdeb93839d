import EV6.Proofs.Cache.FlatMemory

namespace EV6

namespace MemoryHierarchy

open Outcome

variable {π : Type} {h h' : MemoryHierarchy π} {content : π → Memory} {c : Call} {addr : Word}
  {e : BusError} [BlockDevice π]

inductive Reachable (config : Config) : MemoryHierarchy π → Prop
  | start {p : π} {h : MemoryHierarchy π} :
    config.validate = .ok () → ofConfig config p = .ok h → Reachable config h
  | call {h h' : MemoryHierarchy π} (c : Call) :
    Reachable config h → (c.run h).state? = some h' → Reachable config h'
  | device {h : MemoryHierarchy π} (p : π) : Reachable config h → Reachable config (h.withPort p)

theorem Reachable.sound {config : Config} (hr : Reachable config h)
    (hd : FlatDevice content (fun _ => True) fun _ _ => False) : h.Sound fun _ => True := by
  induction hr with
  | start hvalid hc => exact (ofConfig_spec hvalid hc trivial).1
  | @call h h' c _ hrun ih =>
    rcases (run_ends hd ih c).of_state hrun with ⟨a, h₁, -, ha⟩ | ⟨e, hm, -⟩
    · exact ha.sound
    · exact hm.sound
  | device p _ ih => exact ih.withPort trivial

theorem refused_moves {config : Config} (hd : FlatDevice content (fun _ => True) fun _ _ => False)
    (hr : Reachable config h) (hrun : c.run h = .failed e h') :
    Moves content (fun _ => True) (c.traffic h) h h' := by
  have hends := run_ends hd (hr.sound hd) c
  rw [hrun] at hends
  exact hends.1

theorem refused_keeps_of_nothing_leaving {config : Config}
    (hd : FlatDevice content (fun _ => True) fun _ _ => False) (hr : Reachable config h)
    (hrun : c.run h = .failed e h') (hleaving : (c.traffic h).leaving = []) :
    newest content h' = newest content h := by
  funext a
  rw [(refused_moves hd hr hrun).newest_eq (hr.sound hd), if_neg]
  rintro ⟨⟨v, hv, _⟩, _⟩
  rw [hleaving] at hv
  cases hv

theorem refused_probeShare_keeps {config : Config}
    (hd : FlatDevice content (fun _ => True) fun _ _ => False) (hr : Reachable config h)
    (hrun : (Call.probeShare addr).run h = .failed e h') :
    newest content h' = newest content h :=
  refused_keeps_of_nothing_leaving hd hr hrun rfl

theorem refused_call_loses {config : Config}
    (hd : FlatDevice content (fun _ => True) fun _ _ => False) (hr : Reachable config h)
    (hrun : c.run h = .failed e h') :
    (∀ a, newest content h' a =
      if h.Lost (c.traffic h) a then content h.port a else newest content h a) ∧
    ((∀ a, newest content h' a = newest content h a) ↔
      ∀ a, h.Lost (c.traffic h) a → newest content h a = content h.port a) := by
  have hnew := (refused_moves hd hr hrun).newest_eq (hr.sound hd)
  refine ⟨hnew, ?_, ?_⟩
  · intro hsame a hlost
    rw [← hsame a, hnew a, if_pos hlost]
  · intro hkept a
    rw [hnew a]
    split
    · rename_i hlost
      exact (hkept a hlost).symm
    · rfl

def refusingPort : MemoryPort := MemoryPort.sample.refusingWrites 0 8192

theorem refused_evict_loses_write :
    ∃ h h' e, Reachable sampleConfig h ∧ (Call.evict 0).run h = .failed e h' ∧
      newest MemoryPort.content h 0 = 1 ∧ newest MemoryPort.content h' 0 = 0 := by
  have hvalid : sampleConfig.validate = .ok () := rfl
  have hstart : ofConfig sampleConfig refusingPort = .ok _ := rfl
  have hreach : Reachable sampleConfig _ := .call (.write 0 [1]) (.start hvalid hstart) rfl
  refine ⟨_, _, _, hreach, rfl, by decide, ?_⟩
  rw [(refused_call_loses MemoryPort.flat hreach (c := .evict 0) rfl).1 0]
  decide

end MemoryHierarchy

end EV6
