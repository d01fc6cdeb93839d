import EV6.Proofs.Cache.Places

namespace EV6

namespace CacheSet

variable {s : CacheSet} {way : Nat} {l : CacheLine} {x : Option CacheLine}

def Thins (s s' : CacheSet) : Prop :=
  ∀ i a, s'.lineAt i = some a → ∃ a', s.lineAt i = some a' ∧ a'.tag = a.tag

theorem Thins.refl (s : CacheSet) : s.Thins s := fun _ a ha => ⟨a, ha, rfl⟩

theorem Thins.touch {s' : CacheSet} (h : s.Thins s') (way : Nat) : s.Thins (s'.touch way) := h

theorem thins_put (hl : s.lineAt way = some l) (hx : ∀ k, x = some k → k.tag = l.tag) :
    s.Thins (s.put way x) := by
  intro i a ha
  rw [lineAt_put (lineAt_lt hl)] at ha
  split at ha
  · rename_i hi
    exact ⟨l, hi ▸ hl, (hx a ha).symm⟩
  · exact ⟨a, ha, rfl⟩

theorem thins_cleared (s : CacheSet) : s.Thins s.cleared := by
  intro i a ha
  simp [lineAt_cleared] at ha

end CacheSet

namespace Cache

inductive Request where
  | fill (addr : Word) (data : List Byte) (dirty : Bool)
  | read (addr : Word) (length : Nat)
  | write (addr : Word) (data : List Byte)
  | contains (addr : Word)
  | lookup (addr : Word)
  | invalidate (addr : Word)
  | share (addr : Word)
  | flush
  deriving DecidableEq, Repr

inductive Answer where
  | victim (v : Option Victim)
  | data (bytes : Option (List Byte))
  | found (hit : Bool)
  | line (l : Option CacheLine)
  | victims (vs : List Victim)
  deriving DecidableEq, Repr

def Answer.handedOver : Answer → List Victim
  | .victim v => v.toList
  | .victims vs => vs
  | _ => []

namespace Request

def addr? : Request → Option Word
  | .fill addr _ _ | .read addr _ | .write addr _ | .contains addr | .lookup addr | .invalidate addr
  | .share addr => some addr
  | .flush => none

def Fits (lineBytes : Nat) : Request → Prop
  | .fill _ data _ => data.length = lineBytes
  | .read addr length => addr.toNat % lineBytes + length ≤ lineBytes
  | .write addr data => addr.toNat % lineBytes + data.length ≤ lineBytes
  | _ => True

instance (lineBytes : Nat) : (r : Request) → Decidable (r.Fits lineBytes)
  | .fill _ data _ => inferInstanceAs (Decidable (data.length = lineBytes))
  | .read addr length => inferInstanceAs (Decidable (addr.toNat % lineBytes + length ≤ lineBytes))
  | .write addr data =>
    inferInstanceAs (Decidable (addr.toNat % lineBytes + data.length ≤ lineBytes))
  | .contains _ | .lookup _ | .invalidate _ | .share _ | .flush => inferInstanceAs (Decidable True)

end Request

def serve : Request → Step Cache Empty Answer
  | .fill addr data dirty => do return .victim (← Cache.fill addr data dirty)
  | .read addr length => do return .data (← Cache.read addr length)
  | .write addr data => do return .found (← Cache.write addr data)
  | .contains addr => do return .found ((← get).contains addr)
  | .lookup addr => do return .line ((← get).lookup addr)
  | .invalidate addr => do return .victim (← modifyGet (·.invalidate addr))
  | .share addr => do return .victim (← modifyGet (·.share addr))
  | .flush => do return .victims (← modifyGet Cache.flush)

variable {c c' start : Cache} {r : Request} {a : Answer} {addr : Word} {way : Nat} {l : CacheLine}

inductive Served (start : Cache) : List (Request × Answer) → Cache → Prop where
  | nil : Served start [] start
  | snoc {past : List (Request × Answer)} {c c' : Cache} {r : Request} {a : Answer} :
      Served start past c → serve r c = .done a c' → Served start (past ++ [(r, a)]) c'

inductive Does (c : Cache) : Request → Answer → Cache → Prop where
  | fill {addr : Word} {data : List Byte} {dirty : Bool} (whole : data.length = c.lineBytes) :
      Does c (.fill addr data dirty) (.victim (c.displaced addr)) (c.filled addr data dirty)
  | readMiss {addr : Word} {length : Nat} (miss : c.find addr = none) :
      Does c (.read addr length) (.data none) c
  | readHit {addr : Word} {length way : Nat} {l : CacheLine} (hit : c.find addr = some (way, l))
      (within : addr.toNat % c.lineBytes + length ≤ c.lineBytes) :
      Does c (.read addr length)
        (.data (some (Block.slice l.data (addr.toNat % c.lineBytes) length)))
        (c.withSet addr ((c.setAt addr).touch way))
  | writeMiss {addr : Word} {data : List Byte} (miss : c.find addr = none) :
      Does c (.write addr data) (.found false) c
  | writeHit {addr : Word} {data : List Byte} {way : Nat} {l : CacheLine}
      (hit : c.find addr = some (way, l))
      (within : addr.toNat % c.lineBytes + data.length ≤ c.lineBytes) :
      Does c (.write addr data) (.found true) (c.withSet addr
        (((c.setAt addr).put way (some (l.written (addr.toNat % c.lineBytes) data))).touch way))
  | contains {addr : Word} : Does c (.contains addr) (.found (c.contains addr)) c
  | lookup {addr : Word} : Does c (.lookup addr) (.line (c.lookup addr)) c
  | invalidateMiss {addr : Word} (miss : c.find addr = none) :
      Does c (.invalidate addr) (.victim none) c
  | invalidateHit {addr : Word} {way : Nat} {l : CacheLine} (hit : c.find addr = some (way, l)) :
      Does c (.invalidate addr) (.victim (some (c.victimOf addr l)))
        (c.withSet addr ((c.setAt addr).put way none))
  | shareMiss {addr : Word} (miss : c.find addr = none) : Does c (.share addr) (.victim none) c
  | shareHit {addr : Word} {way : Nat} {l : CacheLine} (hit : c.find addr = some (way, l)) :
      Does c (.share addr) (.victim (if l.dirty then some (c.victimOf addr l) else none))
        (c.withSet addr ((c.setAt addr).put way (some (cleaned l))))
  | flush : Does c .flush (.victims c.dirtyVictims) c.cleared

theorem serve_ends (h : c.Sound) (he : c.enabled = true) (r : Request) :
    (serve r c).Ends (fun a c' => c.Does r a c') (fun _ _ => False) (¬r.Fits c.lineBytes) := by
  cases r with
  | fill addr data dirty =>
    by_cases hd : data.length = c.lineBytes
    · simp only [serve, Step.bind_done (fill_apply he hd addr dirty), Step.pure_apply]
      exact .fill hd
    · rw [serve, Step.bind_apply, fill_partial he hd]
      exact hd
  | read addr length =>
    simp only [serve, Cache.read, Step.bind_apply, Step.get_apply]
    cases hf : c.find addr with
    | none => exact .readMiss hf
    | some p =>
      simp only [offsetOf_eq h]
      by_cases hle : addr.toNat % c.lineBytes + length ≤ c.lineBytes
      · simp only [if_pos hle, Step.bind_apply, Step.check_ok, Step.set_apply, Step.pure_apply]
        exact .readHit hf hle
      · simp only [if_neg hle, Step.bind_apply, Step.check_error]
        exact hle
  | write addr data =>
    simp only [serve, Cache.write, Step.bind_apply, Step.get_apply]
    cases hf : c.find addr with
    | none => exact .writeMiss hf
    | some p =>
      simp only [offsetOf_eq h]
      by_cases hle : addr.toNat % c.lineBytes + data.length ≤ c.lineBytes
      · simp only [if_pos hle, Step.bind_apply, Step.check_ok, Step.set_apply, Step.pure_apply]
        exact .writeHit hf hle
      · simp only [if_neg hle, Step.bind_apply, Step.check_error]
        exact hle
  | contains addr => exact .contains
  | lookup addr => exact .lookup
  | invalidate addr =>
    simp only [serve, Step.bind_apply, Step.modifyGet_apply, Step.pure_apply]
    cases hf : c.find addr with
    | none =>
      rw [invalidate_none hf]
      exact .invalidateMiss hf
    | some p =>
      rw [invalidate_eq hf]
      exact .invalidateHit hf
  | share addr =>
    simp only [serve, Step.bind_apply, Step.modifyGet_apply, Step.pure_apply]
    cases hf : c.find addr with
    | none =>
      rw [share_none hf]
      exact .shareMiss hf
    | some p =>
      rw [share_eq hf]
      exact .shareHit hf
  | flush => exact .flush

def linesAfter (c : Cache) : Request → Nat → Option CacheLine
  | .fill addr data dirty => fun n =>
    if n = c.number addr then some ⟨c.geometry.tagOf addr, dirty, false, data⟩
    else if (c.displaced addr).any (·.number c.lineBytes == n) then none
    else c.line n
  | .write addr data => fun n =>
    if n = c.number addr then
      (c.line (c.number addr)).map (·.written (addr.toNat % c.lineBytes) data)
    else c.line n
  | .invalidate addr => fun n => if n = c.number addr then none else c.line n
  | .share addr => fun n =>
    if n = c.number addr then (c.line (c.number addr)).map cleaned else c.line n
  | .flush => fun _ => none
  | .read _ _ | .contains _ | .lookup _ => c.line

theorem Does.becomes (hd : c.Does r a c') (h : c.Sound) (he : c.enabled = true) :
    c.Becomes c' (c.linesAfter r) := by
  cases hd with
  | @fill addr data dirty whole => exact filled_becomes h he addr whole dirty
  | readMiss | contains | lookup => exact h.becomes
  | readHit hit => exact (found hit).becomes_touch h
  | @writeMiss addr data miss =>
    simp only [linesAfter, find_eq_none h miss, Option.map_none]
    exact h.becomes_none (find_eq_none h miss)
  | @writeHit addr data way l hit within =>
    simp only [linesAfter, (found hit).line, Option.map_some]
    exact (found hit).becomes_written h within
  | @invalidateMiss addr miss => exact h.becomes_none (find_eq_none h miss)
  | @invalidateHit addr way l hit =>
    have hb := invalidate_snd h addr
    rwa [invalidate_eq hit] at hb
  | @shareMiss addr miss =>
    have hb := share_snd h addr
    rwa [share_none miss] at hb
  | @shareHit addr way l hit =>
    have hb := share_snd h addr
    rwa [share_eq hit] at hb
  | flush => exact cleared_becomes h

theorem does_of_serve (h : c.Sound) (he : c.enabled = true) (hs : serve r c = .done a c') :
    c.Does r a c' := by
  have hends := serve_ends h he r
  rw [hs] at hends
  exact hends

theorem geometry_ofConfig {name : String} {cfg : CacheConfig} (hc : ofConfig name cfg = .ok c) :
    c.geometry = .ofConfig cfg := by
  obtain ⟨_, _, hc⟩ := ConfigFailure.bind_eq_ok hc
  obtain ⟨_, _, hc⟩ := ConfigFailure.ofBreach_then hc
  cases hc
  rfl

theorem Served.sound {past : List (Request × Answer)} (hr : Served start past c) (h : start.Sound)
    (he : start.enabled = true) :
    c.Sound ∧ c.enabled = true ∧ c.geometry = start.geometry := by
  induction hr with
  | nil => exact ⟨h, he, rfl⟩
  | snoc hpast hs ih =>
    obtain ⟨hc, hce, hg⟩ := ih
    have hb := (does_of_serve hc hce hs).becomes hc hce
    exact ⟨hb.sound, hb.enabled.trans hce, hb.geometry.trans hg⟩

theorem Does.elsewhere (hd : c.Does r a c') {addr : Word} (hr : r.addr? = some addr) {set : Nat}
    (hset : set ≠ c.geometry.setOf addr) : c'.sets.get set = c.sets.get set := by
  have hother (s : CacheSet) : (c.withSet addr s).sets.get set = c.sets.get set :=
    Table.get_set_of_ne _ _ (Ne.symm hset)
  cases hd with
  | readMiss | writeMiss | contains | lookup | invalidateMiss | shareMiss => rfl
  | fill | readHit | writeHit | invalidateHit | shareHit =>
    cases hr
    exact hother _
  | flush => cases hr

theorem lineAt_withSet {s : CacheSet} {w : Nat}
    (hs : ∀ k, k ≠ w → s.lineAt k = (c.setAt addr).lineAt k) (set : Nat) :
    ∀ k, k ≠ w → ((c.withSet addr s).sets.get set).lineAt k = (c.sets.get set).lineAt k := by
  intro k hk
  rw [withSet, Table.get_set]
  split
  · subst set
    exact hs k hk
  · rfl

theorem Does.one_way (hd : c.Does r a c') (hr : r ≠ .flush) :
    ∃ w, ∀ set k, k ≠ w → (c'.sets.get set).lineAt k = (c.sets.get set).lineAt k := by
  cases hd with
  | readMiss | writeMiss | contains | lookup | invalidateMiss | shareMiss =>
    exact ⟨0, fun _ _ _ => rfl⟩
  | @readHit addr length way l hit within =>
    exact ⟨way, lineAt_withSet fun k _ => rfl⟩
  | @fill addr data dirty whole =>
    exact ⟨(c.setAt addr).fillWay (c.geometry.tagOf addr),
      lineAt_withSet fun k hk => CacheSet.lineAt_put_ne hk⟩
  | @writeHit addr data way l hit within =>
    exact ⟨way, lineAt_withSet fun k hk => CacheSet.lineAt_put_ne hk⟩
  | @invalidateHit addr way l hit =>
    exact ⟨way, lineAt_withSet fun k hk => CacheSet.lineAt_put_ne hk⟩
  | @shareHit addr way l hit =>
    exact ⟨way, lineAt_withSet fun k hk => CacheSet.lineAt_put_ne hk⟩
  | flush => exact absurd rfl hr

def filledBy : Request × Answer → Option Word
  | (.fill addr _ _, _) => some addr
  | _ => none

theorem Found.slot (hl : c.Found addr way l) : (c.setAt addr).lineAt way = some l := by
  rw [← CacheSet.lookup_of_wayOf hl.wayOf, lookup_setAt, hl.line]

theorem thins_withSet {s : CacheSet} (h : (c.setAt addr).Thins s) (set : Nat) :
    (c.sets.get set).Thins ((c.withSet addr s).sets.get set) := by
  rw [withSet, Table.get_set]
  split
  · rename_i hset
    exact hset ▸ h
  · exact .refl _

theorem Does.thins (hd : c.Does r a c') (hf : filledBy (r, a) = none) (set : Nat) :
    (c.sets.get set).Thins (c'.sets.get set) := by
  cases hd with
  | readMiss | writeMiss | contains | lookup | invalidateMiss | shareMiss => exact .refl _
  | fill => cases hf
  | readHit hit => exact thins_withSet ((CacheSet.Thins.refl _).touch _) set
  | writeHit hit =>
    refine thins_withSet ((CacheSet.thins_put (found hit).slot ?_).touch _) set
    rintro k ⟨⟩
    rfl
  | invalidateHit hit => exact thins_withSet (CacheSet.thins_put (found hit).slot (by simp)) set
  | shareHit hit =>
    refine thins_withSet (CacheSet.thins_put (found hit).slot ?_) set
    rintro k ⟨⟩
    rfl
  | flush =>
    rw [cleared, Table.get_map]
    exact CacheSet.thins_cleared _

theorem Does.geometry (hd : c.Does r a c') : c'.geometry = c.geometry := by cases hd <;> rfl

theorem flushed_holds_nothing {set way : Nat} {b : Word} : ¬c.cleared.Holds set way b l := by
  intro hl
  have hslot := hl.slot
  rw [cleared, Table.get_map, CacheSet.lineAt_cleared] at hslot
  cases hslot

theorem Does.in_place (hd : c.Does r a c') (h : c.Sound) (he : c.enabled = true)
    {set set' way way' : Nat} {b : Word} {l l' : CacheLine} (hl : c.Holds set way b l)
    (hl' : c'.Holds set' way' b l') : set = set' ∧ way = way' := by
  have hb := hd.becomes h he
  have hset : set = set' := by
    rw [← hl.setOf_eq h, ← hl'.setOf_eq hb.sound, hb.geometry]
  have htag : l.tag = l'.tag := by
    rw [← hl.tagOf_eq h, ← hl'.tagOf_eq hb.sound, hb.geometry]
  subst hset
  refine ⟨rfl, ?_⟩
  by_cases hr : r = .flush
  · subst hr
    cases hd
    exact absurd hl' flushed_holds_nothing
  · obtain ⟨w, hsame⟩ := hd.one_way hr
    have hs' := hb.sound.sets set
    rw [hb.geometry, hb.lineBytes] at hs'
    exact (h.sets set).way_eq hs' (hsame set) hl.slot hl'.slot htag

section Named

variable {names : Request × Answer → Option Word} {lineBytes k j : Nat}
  {past : List (Request × Answer)} {e : Request × Answer} {b : Word}

def NamedAt (names : Request × Answer → Option Word) (lineBytes : Nat)
    (past : List (Request × Answer)) (b : Word) (k : Nat) : Prop :=
  ∃ e addr, past[k]? = some e ∧ names e = some addr ∧ Address.lineBase addr lineBytes = b

structure LastNamed (names : Request × Answer → Option Word) (lineBytes : Nat)
    (past : List (Request × Answer)) (b : Word) (k : Nat) : Prop where
  named : NamedAt names lineBytes past b k
  last : ∀ j, NamedAt names lineBytes past b j → j ≤ k

theorem NamedAt.lt (h : NamedAt names lineBytes past b k) : k < past.length := by
  obtain ⟨e, addr, he, -⟩ := h
  exact (List.getElem?_eq_some_iff.mp he).1

theorem LastNamed.unique (hk : LastNamed names lineBytes past b k)
    (hj : LastNamed names lineBytes past b j) : k = j :=
  Nat.le_antisymm (hj.last k hk.named) (hk.last j hj.named)

theorem namedAt_snoc : NamedAt names lineBytes (past ++ [e]) b k ↔
    NamedAt names lineBytes past b k ∨
      (k = past.length ∧ ∃ addr, names e = some addr ∧ Address.lineBase addr lineBytes = b) := by
  constructor
  · rintro ⟨e', addr, he, hn, hb⟩
    by_cases hk : k < past.length
    · rw [List.getElem?_append_left hk] at he
      exact .inl ⟨e', addr, he, hn, hb⟩
    · obtain ⟨hlt, -⟩ := List.getElem?_eq_some_iff.mp he
      rw [List.length_append, List.length_singleton] at hlt
      obtain rfl : k = past.length := by omega
      rw [List.getElem?_concat_length] at he
      obtain rfl := Option.some.inj he
      exact .inr ⟨rfl, addr, hn, hb⟩
  · rintro (h | ⟨rfl, addr, hn, hb⟩)
    · obtain ⟨e', addr, he, hn, hb⟩ := h
      have hlt := (List.getElem?_eq_some_iff.mp he).1
      exact ⟨e', addr, by rw [List.getElem?_append_left hlt, he], hn, hb⟩
    · exact ⟨e, addr, List.getElem?_concat_length, hn, hb⟩

theorem lastNamed_snoc_self (hn : names e = some addr)
    (hb : Address.lineBase addr lineBytes = b) :
    LastNamed names lineBytes (past ++ [e]) b k ↔ k = past.length := by
  have hnew : NamedAt names lineBytes (past ++ [e]) b past.length :=
    namedAt_snoc.mpr (.inr ⟨rfl, addr, hn, hb⟩)
  have hle {j : Nat} (h : NamedAt names lineBytes (past ++ [e]) b j) : j ≤ past.length := by
    have hlt := h.lt
    rw [List.length_append, List.length_singleton] at hlt
    omega
  constructor
  · intro h
    exact Nat.le_antisymm (hle h.named) (h.last _ hnew)
  · rintro rfl
    exact ⟨hnew, fun _ => hle⟩

theorem lastNamed_snoc_of_ne
    (hne : ∀ addr, names e = some addr → Address.lineBase addr lineBytes ≠ b) :
    LastNamed names lineBytes (past ++ [e]) b k ↔ LastNamed names lineBytes past b k := by
  have hnamed (j : Nat) :
      NamedAt names lineBytes (past ++ [e]) b j ↔ NamedAt names lineBytes past b j := by
    rw [namedAt_snoc]
    refine ⟨?_, .inl⟩
    rintro (h | ⟨-, addr, hn, hb⟩)
    · exact h
    · exact absurd hb (hne addr hn)
  constructor
  · rintro ⟨hn, hl⟩
    exact ⟨(hnamed k).mp hn, fun j hj => hl j ((hnamed j).mpr hj)⟩
  · rintro ⟨hn, hl⟩
    exact ⟨(hnamed k).mpr hn, fun j hj => hl j ((hnamed j).mp hj)⟩

end Named

def twoWays : CacheConfig := ⟨true, 16, 8, 2, .leastRecent, 0⟩

end Cache

end EV6
