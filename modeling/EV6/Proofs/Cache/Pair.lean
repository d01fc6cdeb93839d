import EV6.Proofs.Cache.FlatMemory

namespace EV6

inductive Agent where
  | first
  | second
  deriving DecidableEq, Repr

def Agent.other : Agent → Agent
  | first => second
  | second => first

@[simp] theorem Agent.other_other (a : Agent) : a.other.other = a := by
  cases a <;> rfl

theorem Agent.other_ne (a : Agent) : a.other ≠ a := by
  cases a <;> decide

theorem Agent.eq_other {a b : Agent} (h : b ≠ a) : b = a.other := by
  cases a <;> cases b <;> first | rfl | exact absurd rfl h

structure Pair (π : Type) where
  side : Agent → MemoryHierarchy π
  shared : ∀ a b, (side a).port = (side b).port

namespace MemoryHierarchy

variable {π : Type} {h h' : MemoryHierarchy π} {content : π → Memory} {ok : π → Prop}
  {answers : Word → Nat → Prop} {c : Call} {size : Nat}

structure Backed (ok : π → Prop) (answers : Word → Nat → Prop) (size : Nat)
    (h : MemoryHierarchy π) : Prop where
  sound : h.Sound ok
  lineBytes : h.lineBytes = size
  answered : h.Answered answers

theorem Backed.withPort (hb : h.Backed ok answers size) {p : π} (hp : ok p) :
    (h.withPort p).Backed ok answers size :=
  ⟨hb.sound.withPort hp, hb.lineBytes, hb.answered⟩

theorem ofConfig_backed {config : Config} {p : π} (hu : config.Uniform size)
    (hc : ofConfig config p = .ok h) (hp : ok p) : h.Backed ok answers size := by
  obtain ⟨hs, hline, -, hn⟩ := ofConfig_uniform hu hc hp
  refine ⟨hs, hline, fun n l hl => ?_⟩
  rw [hn] at hl
  cases hl

variable [BlockDevice π]

theorem accessTraffic_answered (hx : ExactDevice content ok answers) (hs : h.Sound ok)
    (ha : h.Answered answers) (addr : Word) :
    ∀ n ∈ (h.accessTraffic addr).entering,
      answers (BitVec.ofNat 64 (n * h.lineBytes)) h.lineBytes := by
  intro n hn
  have hplace := accessTraffic_entering hs addr n hn
  rw [accessTraffic] at hn
  split at hn
  · simp only [lineTraffic] at hn
    split at hn
    · cases hn
    · split at hn
      · rename_i hbehind
        obtain rfl := List.mem_singleton.mp hn
        rw [Cache.contains_eq_isSome hs.bcache, number_bcache hs] at hbehind
        obtain ⟨l, hl⟩ := Option.isSome_iff_exists.mp hbehind
        exact ha _ l (hs.copy_of_bcache hl)
      · split at hn
        · rename_i hread
          rw [hplace]
          exact hx.read_answered hs.port hread
        · cases hn
  · cases hn

theorem traffic_answered (hx : ExactDevice content ok answers) (hs : h.Sound ok)
    (ha : h.Answered answers) (c : Call) :
    ∀ n ∈ (c.traffic h).entering, answers (BitVec.ofNat 64 (n * h.lineBytes)) h.lineBytes := by
  cases c with
  | read addr length => exact accessTraffic_answered hx hs ha addr
  | write addr data => exact accessTraffic_answered hx hs ha addr
  | fetch addr => exact fun n hn => nomatch hn
  | flush => exact fun n hn => nomatch hn
  | evict addr => exact fun n hn => nomatch hn
  | probeInvalidate addr => exact fun n hn => nomatch hn
  | probeShare addr => exact fun n hn => nomatch hn

theorem run_moves (hd : FlatDevice content ok answers) (hs : h.Sound ok)
    (hrun : (c.run h).state? = some h') :
    ∃ h₁, Moves content ok (c.traffic h) h h₁ ∧
      (h' = h₁ ∨ ∃ a, Applies content ok c a h₁ h') := by
  rcases (run_ends hd hs c).of_state hrun with ⟨a, h₁, hm, ha⟩ | ⟨e, hm, -⟩
  · exact ⟨h₁, hm.toMoves, .inr ⟨a, ha⟩⟩
  · exact ⟨h', hm, .inl rfl⟩

theorem Backed.run (hx : ExactDevice content ok answers) (hb : h.Backed ok answers size)
    (hrun : (c.run h).state? = some h') : h'.Backed ok answers size := by
  obtain ⟨h₁, hm, hthen⟩ := run_moves hx.toFlatDevice hb.sound hrun
  have hans := hm.answered hb.answered (traffic_answered hx hb.sound hb.answered c)
  have hline := hm.alike.lineBytes.trans hb.lineBytes
  rcases hthen with rfl | ⟨a, ha⟩
  · exact ⟨hm.sound, hline, hans⟩
  · exact ⟨ha.sound, ha.alike.lineBytes.trans hline, ha.answered hans⟩

end MemoryHierarchy

namespace Pair

open MemoryHierarchy

variable {π : Type} {s s' s'' : Pair π} {a b : Agent} {c : Call} {content : π → Memory}
  {ok : π → Prop} {answers : Word → Nat → Prop} {size : Nat} {allowed : Call → Prop}

def put (s : Pair π) (a : Agent) (h : MemoryHierarchy π) : Pair π where
  side b := if b = a then h else (s.side b).withPort h.port
  shared b c := by
    have hport (d : Agent) :
        (if d = a then h else (s.side d).withPort h.port).port = h.port := by
      split <;> rfl
    rw [hport, hport]

@[simp] theorem side_put (s : Pair π) (a : Agent) (h : MemoryHierarchy π) :
    (s.put a h).side a = h := if_pos rfl

@[simp] theorem other_put (s : Pair π) (a : Agent) (h : MemoryHierarchy π) :
    (s.put a h).side a.other = (s.side a.other).withPort h.port := if_neg a.other_ne

theorem forall_put {P : MemoryHierarchy π → Prop} {h : MemoryHierarchy π} (hself : P h)
    (hother : P ((s.side a.other).withPort h.port)) (b : Agent) : P ((s.put a h).side b) := by
  by_cases hb : b = a
  · rw [hb, side_put]
    exact hself
  · rw [Agent.eq_other hb, other_put]
    exact hother

variable [BlockDevice π]

def run (a : Agent) (c : Call) : Step (Pair π) BusError (Option (List Byte)) :=
  c.run.onPart (·.side a) fun h s => s.put a h

theorem run_done {x : Option (List Byte)} {h : MemoryHierarchy π}
    (hrun : c.run (s.side a) = .done x h) : run a c s = .done x (s.put a h) :=
  Step.onPart_done hrun

theorem run_state (hrun : (run a c s).state? = some s') :
    ∃ h, (c.run (s.side a)).state? = some h ∧ s.put a h = s' := by
  rw [run, Step.state_onPart] at hrun
  exact Option.map_eq_some_iff.mp hrun

inductive Steps (allowed : Call → Prop) (s : Pair π) : Pair π → Prop
  | refl : Steps allowed s s
  | call {s₁ s₂ : Pair π} (a : Agent) (c : Call) :
    Steps allowed s s₁ → allowed c → (run a c s₁).state? = some s₂ → Steps allowed s s₂

theorem Steps.one {x : Option (List Byte)} (hc : allowed c) (hrun : run a c s = .done x s') :
    Steps allowed s s' :=
  .call a c .refl hc (by rw [hrun]; rfl)

def Backed (ok : π → Prop) (answers : Word → Nat → Prop) (size : Nat) (s : Pair π) : Prop :=
  ∀ a, (s.side a).Backed ok answers size

theorem Backed.run (hx : ExactDevice content ok answers) (hb : s.Backed ok answers size)
    (hrun : (Pair.run a c s).state? = some s') : s'.Backed ok answers size := by
  obtain ⟨h, hcall, rfl⟩ := run_state hrun
  have hself := (hb a).run hx hcall
  exact forall_put hself ((hb a.other).withPort hself.sound.port)

theorem Backed.steps (hx : ExactDevice content ok answers) (hb : s.Backed ok answers size)
    (hsteps : Steps allowed s s') : s'.Backed ok answers size := by
  induction hsteps with
  | refl => exact hb
  | call a c _ _ hrun ih => exact ih.run hx hrun

end Pair

end EV6
