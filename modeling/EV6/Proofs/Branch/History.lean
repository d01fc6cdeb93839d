import EV6.Proofs.Branch.Periodic
import Mathlib.Data.List.Infix
import Mathlib.Data.Nat.Digits.Defs
/-!
The predictor as a function of what it was trained with. A history is the last outcomes of the
branches that share its entry, and a counter has followed the outcomes that came while its entry was
the history, of the branch or of all branches.
-/

namespace EV6

structure Training where
  pc : Word
  taken : Bool
  localVote : Bool
  globalVote : Bool
  deriving DecidableEq, Repr

namespace Training

def localRight (x : Training) : Bool := x.localVote == x.taken

def globalRight (x : Training) : Bool := x.globalVote == x.taken

def Decisive (x : Training) : Prop := x.localRight ≠ x.globalRight

instance (x : Training) : Decidable x.Decisive := inferInstanceAs (Decidable (_ ≠ _))

end Training

namespace Counter

variable {bits : Nat} {outcomes : List Bool}

def followed (bits : Nat) (outcomes : List Bool) : Nat :=
  outcomes.foldl (fun value up => if up then min (value + 1) (2 ^ bits - 1) else value - 1)
    (2 ^ (bits - 1) - 1)

theorem followed_snoc (up : Bool) : followed bits (outcomes ++ [up]) =
    if up then min (followed bits outcomes + 1) (2 ^ bits - 1) else followed bits outcomes - 1 := by
  rw [followed, List.foldl_append]
  rfl

theorem followed_le : followed bits outcomes ≤ 2 ^ bits - 1 := by
  induction outcomes using List.reverseRecOn with
  | nil =>
    have : 2 ^ (bits - 1) ≤ 2 ^ bits := Nat.pow_le_pow_right Nat.two_pos (Nat.sub_le bits 1)
    simp only [followed, List.foldl_nil]
    omega
  | append_singleton outcomes up ih =>
    rw [followed_snoc]
    split
    · exact Nat.min_le_right _ _
    · exact Nat.le_trans (Nat.sub_le _ 1) ih

theorem value_update {c : Counter bits} (h : c.value = followed bits outcomes) (up : Bool) :
    (c.update up).value = followed bits (outcomes ++ [up]) := by
  have bound : c.value ≤ 2 ^ bits - 1 := h ▸ followed_le
  rw [followed_snoc, ← h]
  cases up with
  | false => rfl
  | true =>
    simp only [update, increment, top, Nat.one_shiftLeft, if_true]
    by_cases room : c.value < 2 ^ bits - 1
    · rw [if_pos room, Nat.min_eq_left room]
    · rw [if_neg room]
      omega

end Counter

namespace Tournament

variable {l g bits : Nat} {past : List Training} {x : Training} {t : Tournament}

/-- The last `bits` outcomes as a binary number, the latest in bit 0. Zeros stand for those before
the first. -/
def recent (bits : Nat) (outcomes : List Bool) : Nat :=
  Nat.ofDigits 2 ((outcomes.reverse.take bits).map Bool.toNat)

theorem digit_lt {outcomes : List Bool} {d : Nat} (h : d ∈ outcomes.map Bool.toNat) : d < 2 := by
  obtain ⟨b, -, rfl⟩ := List.mem_map.mp h
  exact b.toNat_lt

theorem recent_lt (bits : Nat) (outcomes : List Bool) : recent bits outcomes < 2 ^ bits := by
  calc recent bits outcomes
      < 2 ^ ((outcomes.reverse.take bits).map Bool.toNat).length :=
        Nat.ofDigits_lt_base_pow_length Nat.one_lt_two fun _ => digit_lt
    _ ≤ 2 ^ bits := Nat.pow_le_pow_right Nat.two_pos (by simp)

theorem shiftIn_recent (bits : Nat) (outcomes : List Bool) (taken : Bool) :
    shiftIn bits (recent bits outcomes) taken = recent bits (outcomes ++ [taken]) := by
  have digits : ∀ d ∈ (taken :: outcomes.reverse.take bits).map Bool.toNat, d < 2 :=
    fun _ => digit_lt
  have shifted : 2 * recent bits outcomes + taken.toNat =
      Nat.ofDigits 2 ((taken :: outcomes.reverse.take bits).map Bool.toNat) := by
    rw [List.map_cons, Nat.ofDigits_cons, recent, Nat.add_comm]
  rw [shiftIn, shifted, Nat.one_shiftLeft,
    Nat.ofDigits_mod_pow_eq_ofDigits_take _ Nat.two_pos _ digits, recent, List.reverse_append,
    ← List.map_take]
  cases bits with
  | zero => rfl
  | succ n => simp [List.take_take]

def Aliases (l : Nat) (pc pc' : Word) : Prop := (pc >>> 2).toNat ≡ (pc' >>> 2).toNat [MOD 2 ^ l]

instance (l : Nat) (pc pc' : Word) : Decidable (Aliases l pc pc') :=
  inferInstanceAs (Decidable (_ ≡ _ [MOD _]))

def pathAfter (g : Nat) (past : List Training) : Nat := recent g (past.map (·.taken))

def historyAfter (l : Nat) (past : List Training) (pc : Word) : Nat :=
  recent l ((past.filter fun x => Aliases l x.pc pc).map (·.taken))

theorem pathAfter_snoc :
    pathAfter g (past ++ [x]) = shiftIn g (pathAfter g past) x.taken := by
  rw [pathAfter, pathAfter, shiftIn_recent, List.map_append]
  rfl

theorem historyAfter_snoc (pc : Word) : historyAfter l (past ++ [x]) pc =
    if Aliases l x.pc pc then shiftIn l (historyAfter l past pc) x.taken
    else historyAfter l past pc := by
  by_cases h : Aliases l x.pc pc
  · simp [historyAfter, shiftIn_recent, h]
  · simp [historyAfter, h]

def stages (past : List Training) : List (List Training × Training) := past.inits.zip past

theorem stages_cons : stages (x :: past) = ([], x) :: (stages past).map (Prod.map (x :: ·) id) := by
  simp [stages, List.zip_map_left]

theorem stages_snoc : stages (past ++ [x]) = stages past ++ [(past, x)] := by
  induction past with
  | nil => rfl
  | cons y past ih => simp [stages_cons, ih]

def tally (bits : Nat) (visits : List Training → Training → Prop) [DecidableRel visits]
    (up : Training → Bool) (past : List Training) : Nat :=
  Counter.followed bits (((stages past).filter fun s => visits s.1 s.2).map fun s => up s.2)

theorem tally_snoc {visits : List Training → Training → Prop} [DecidableRel visits]
    {up : Training → Bool} {c : Counter bits} (h : c.value = tally bits visits up past) :
    (if visits past x then c.update (up x) else c).value = tally bits visits up (past ++ [x]) := by
  by_cases visited : visits past x
  · simp [tally, stages_snoc, visited, Counter.value_update h]
  · simp [tally, stages_snoc, visited, h]

def localValue (l : Nat) (past : List Training) (history : Nat) : Nat :=
  tally 3 (fun earlier x => historyAfter l earlier x.pc = history) (·.taken) past

def globalValue (g : Nat) (past : List Training) (path : Nat) : Nat :=
  tally 2 (fun earlier _ => pathAfter g earlier = path) (·.taken) past

def choiceValue (g : Nat) (past : List Training) (path : Nat) : Nat :=
  tally 2 (fun earlier x => pathAfter g earlier = path ∧ x.Decisive) (·.globalRight) past

structure Recalls (l g : Nat) (past : List Training) (t : Tournament) : Prop where
  localBits : t.localBits = l
  globalBits : t.globalBits = g
  globalPath : t.globalPath = pathAfter g past
  localHistory : ∀ pc, t.localHistory pc = historyAfter l past pc
  localCounters : ∀ history, (t.localCounters.get history).value = localValue l past history
  globalCounters : ∀ path, (t.globalCounters.get path).value = globalValue g past path
  choiceCounters : ∀ path, (t.choiceCounters.get path).value = choiceValue g past path

theorem historyIndex_eq_iff {pc pc' : Word} :
    t.historyIndex pc = t.historyIndex pc' ↔ Aliases t.localBits pc pc' := by
  simp [historyIndex, Aliases, Nat.ModEq, Nat.one_shiftLeft, Nat.shiftRight_eq_div_pow]

theorem recalls_reset (hl : l ≤ 16) (hg : g ≤ 16) (mode : PredictionMode) :
    Recalls l g [] (reset l g mode) := by
  constructor <;> simp [reset, hl, hg, pathAfter, historyAfter, recent, Tournament.localHistory,
    localValue, globalValue, choiceValue, tally, stages, Counter.followed, Counter.weaklyNotTaken,
    Counter.threshold]

theorem Recalls.train (h : Recalls l g past t) (x : Training) :
    Recalls l g (past ++ [x]) (t.train x.pc x.taken x.localVote x.globalVote) := by
  have history : t.histories.get (t.historyIndex x.pc) = historyAfter l past x.pc :=
    h.localHistory x.pc
  constructor
  case localBits => exact h.localBits
  case globalBits => exact h.globalBits
  case globalPath =>
    rw [pathAfter_snoc, ← h.globalPath, ← h.globalBits]
    rfl
  case localHistory =>
    intro pc
    change (t.histories.set _ _).get (t.historyIndex pc) = _
    rw [Table.get_set, historyAfter_snoc]
    by_cases shared : Aliases l x.pc pc
    · have index : t.historyIndex x.pc = t.historyIndex pc :=
        historyIndex_eq_iff.mpr (h.localBits ▸ shared)
      rw [if_pos index, if_pos shared, ← h.localHistory pc, h.localBits, Tournament.localHistory,
        index]
    · have index : t.historyIndex x.pc ≠ t.historyIndex pc :=
        fun index => shared (h.localBits ▸ historyIndex_eq_iff.mp index)
      rw [if_neg index, if_neg shared]
      exact h.localHistory pc
  case localCounters =>
    intro entry
    change ((t.localCounters.modify _ _).get entry).value = _
    rw [Table.get_modify, history]
    exact tally_snoc (h.localCounters entry)
  case globalCounters =>
    intro entry
    change ((t.globalCounters.modify _ _).get entry).value = _
    rw [Table.get_modify, h.globalPath]
    exact tally_snoc (h.globalCounters entry)
  case choiceCounters =>
    intro entry
    have counted := tally_snoc (x := x) (h.choiceCounters entry)
    rw [choiceValue]
    change (Table.get (if x.globalRight = x.localRight then t.choiceCounters
      else t.choiceCounters.modify t.globalPath (·.update x.globalRight)) entry).value = _
    by_cases decisive : x.Decisive
    · rw [if_neg (Ne.symm decisive), Table.get_modify, h.globalPath]
      simpa only [decisive, and_true] using counted
    · rw [if_pos (Eq.symm (not_not.mp decisive))]
      simpa only [decisive, and_false, if_false] using counted

theorem Recalls.setMode (h : Recalls l g past t) (mode : PredictionMode) :
    Recalls l g past (t.setMode mode) := by
  obtain ⟨h₁, h₂, h₃, h₄, h₅, h₆, h₇⟩ := h
  exact ⟨h₁, h₂, h₃, h₄, h₅, h₆, h₇⟩

def forecast (l g : Nat) (mode : PredictionMode) (past : List Training) (pc : Word) : Prediction :=
  let localVote := decide (4 ≤ localValue l past (historyAfter l past pc))
  let globalVote := decide (2 ≤ globalValue g past (pathAfter g past))
  let choice := decide (2 ≤ choiceValue g past (pathAfter g past))
  ⟨vote mode localVote globalVote choice, localVote, globalVote, choice⟩

theorem Recalls.predict (h : Recalls l g past t) (pc : Word) :
    t.predict pc = forecast l g t.mode past pc := by
  simp only [Tournament.predict, forecast, Counter.taken, localCounter, globalCounter,
    choiceCounter, h.localHistory, h.globalPath, h.localCounters, h.globalCounters,
    h.choiceCounters]
  rfl

theorem Recalls.in_range (h : Recalls l g past t) (pc : Word) :
    t.historyIndex pc < 2 ^ l ∧ t.localHistory pc < 2 ^ l ∧ t.globalPath < 2 ^ g := by
  refine ⟨?_, ?_, ?_⟩
  · rw [historyIndex, h.localBits, Nat.one_shiftLeft]
    exact Nat.mod_lt _ (Nat.two_pow_pos l)
  · rw [h.localHistory]
    exact recent_lt l _
  · rw [h.globalPath]
    exact recent_lt g _

inductive Request where
  | train (x : Training)
  | predict (pc : Word)
  | setMode (mode : PredictionMode)
  deriving DecidableEq, Repr

def Request.training? : Request → Option Training
  | .train x => some x
  | .predict _ | .setMode _ => none

def serve (t : Tournament) : Request → Tournament
  | .train x => t.train x.pc x.taken x.localVote x.globalVote
  | .predict _ => t
  | .setMode mode => t.setMode mode

def trainings (requests : List Request) : List Training := requests.filterMap (·.training?)

theorem Recalls.serve {r : Request} (h : Recalls l g past t) :
    Recalls l g (past ++ trainings [r]) (t.serve r) := by
  cases r with
  | train x => exact h.train x
  | predict pc =>
    change Recalls l g (past ++ []) t
    rwa [List.append_nil]
  | setMode mode =>
    change Recalls l g (past ++ []) (t.setMode mode)
    rw [List.append_nil]
    exact h.setMode mode

theorem Recalls.serveAll (h : Recalls l g [] t) (requests : List Request) :
    Recalls l g (trainings requests) (requests.foldl Tournament.serve t) := by
  induction requests using List.reverseRecOn with
  | nil => exact h
  | append_singleton requests r ih =>
    rw [trainings, List.filterMap_append, List.foldl_append]
    exact ih.serve

theorem refines_history (hl : l ≤ 16) (hg : g ≤ 16) (mode : PredictionMode)
    (requests : List Request) : ∃ start t, build l g mode = .ok start ∧
      requests.foldl serve start = t ∧ Recalls l g (trainings requests) t ∧
      (∀ pc, t.historyIndex pc < 2 ^ l ∧ t.localHistory pc < 2 ^ l ∧ t.globalPath < 2 ^ g) ∧
      (∀ pc, t.predict pc = forecast l g t.mode (trainings requests) pc) ∧
      ∀ r, r.training? = none → { t.serve r with mode := t.mode } = t := by
  have recalls := (recalls_reset hl hg mode).serveAll requests
  refine ⟨_, _, build_eq_reset hl hg, rfl, recalls, recalls.in_range, recalls.predict, ?_⟩
  intro r hr
  cases r with
  | train x => cases hr
  | predict pc => rfl
  | setMode mode => rfl

def sharedHistory : List Request :=
  [.train ⟨0x1000, true, false, true⟩, .predict 0x1010, .train ⟨0x1010, true, false, false⟩,
    .setMode .localOnly]

theorem refines_history_shared :
    ∃ start t, build 2 1 .choice = .ok start ∧ sharedHistory.foldl serve start = t ∧
      t.localHistory 0x1000 = 3 ∧ (t.localCounters.get 1).value = 4 ∧
      (t.choiceCounters.get 0).value = 2 ∧ t.predict 0x1000 = ⟨false, false, true, false⟩ := by
  obtain ⟨start, t, hbuild, hrun, recalls, -, predicts, -⟩ :=
    refines_history (l := 2) (g := 1) (by decide) (by decide) .choice sharedHistory
  refine ⟨start, t, hbuild, hrun, ?_, ?_, ?_, ?_⟩
  · rw [recalls.localHistory]
    decide
  · rw [recalls.localCounters]
    decide
  · rw [recalls.choiceCounters]
    decide
  · rw [predicts]
    have hmode : t.mode = .localOnly := by
      cases hbuild
      rw [← hrun]
      rfl
    rw [hmode]
    decide

end Tournament

end EV6
