import EV6.Cache.Basic
import EV6.Proofs.Cache.Set
import EV6.Proofs.Config.Valid
import EV6.Proofs.Fault.Ends
/-!
A cache as a finite map from line numbers to lines, and what each of its operations does to that map.
The number of a line is its address divided by the bytes of a line.
-/

namespace EV6

namespace CacheGeometry

variable {g : CacheGeometry} {addr : Word} {n : Nat}

theorem setOf_eq (g : CacheGeometry) (addr : Word) :
    g.setOf addr = addr.toNat / g.lineBytes % g.sets := rfl

theorem tagOf_eq (g : CacheGeometry) (addr : Word) :
    g.tagOf addr = addr.toNat / g.lineBytes / g.sets :=
  (Nat.div_div_eq_div_mul _ _ _).symm

theorem place_div {set tag : Nat} (hs : set < g.sets) : (tag * g.sets + set) / g.sets = tag := by
  rw [Nat.mul_comm, Nat.mul_add_div (Nat.zero_lt_of_lt hs), Nat.div_eq_of_lt hs, Nat.add_zero]

theorem place_mod {set tag : Nat} (hs : set < g.sets) : (tag * g.sets + set) % g.sets = set := by
  rw [Nat.mul_add_mod_self_right, Nat.mod_eq_of_lt hs]

theorem lineAddress_eq (g : CacheGeometry) (n : Nat) :
    g.lineAddress (n % g.sets) (n / g.sets) = BitVec.ofNat 64 (n * g.lineBytes) := by
  rw [lineAddress, Nat.mul_comm (n / g.sets), Nat.div_add_mod]

end CacheGeometry

def CacheLine.victim (lineBytes n : Nat) (line : CacheLine) : Victim :=
  ⟨BitVec.ofNat 64 (n * lineBytes), line.dirty, line.data⟩

def Victim.number (lineBytes : Nat) (v : Victim) : Nat := v.addr.toNat / lineBytes

theorem CacheLine.addr_victim {lineBytes n : Nat} (line : CacheLine)
    (h : n * lineBytes < Machine.limit) : (line.victim lineBytes n).addr.toNat = n * lineBytes := by
  rw [victim, BitVec.toNat_ofNat, Nat.mod_eq_of_lt (by exact h)]

theorem CacheLine.number_victim {lineBytes n : Nat} (line : CacheLine) (hpos : 0 < lineBytes)
    (h : n * lineBytes < Machine.limit) : (line.victim lineBytes n).number lineBytes = n := by
  rw [Victim.number, line.addr_victim h, Nat.mul_div_cancel _ hpos]

namespace Cache

variable {c c' : Cache} {addr : Word} {n way : Nat} {l : CacheLine} {v : Victim} {ε : Type}
  {f : Nat → Option CacheLine}

def line (c : Cache) (n : Nat) : Option CacheLine :=
  (c.sets.get (n % c.geometry.sets)).lookup (n / c.geometry.sets)

def number (c : Cache) (addr : Word) : Nat := addr.toNat / c.lineBytes

structure Sound (c : Cache) : Prop where
  lineSize : LineSize c.lineBytes
  sets_pos : 0 < c.geometry.sets
  ways_pos : 0 < c.geometry.ways
  sets : ∀ i, (c.sets.get i).Sound c.geometry.ways c.lineBytes
  inside : ∀ n l, c.line n = some l → n * c.lineBytes < Machine.limit
  disabled : c.enabled = false → ∀ n, c.line n = none

structure Becomes (c c' : Cache) (f : Nat → Option CacheLine) : Prop where
  sound : c'.Sound
  geometry : c'.geometry = c.geometry
  enabled : c'.enabled = c.enabled
  latency : c'.latency = c.latency
  line : ∀ n, c'.line n = f n

theorem Becomes.lineBytes (h : c.Becomes c' f) : c'.lineBytes = c.lineBytes :=
  congrArg CacheGeometry.lineBytes h.geometry

theorem Becomes.trans {c'' : Cache} {g : Nat → Option CacheLine} (h : c.Becomes c' f)
    (h' : c'.Becomes c'' g) : c.Becomes c'' g :=
  ⟨h'.sound, h'.geometry.trans h.geometry, h'.enabled.trans h.enabled, h'.latency.trans h.latency,
    h'.line⟩

theorem Sound.becomes (h : c.Sound) : c.Becomes c c.line := ⟨h, rfl, rfl, rfl, fun _ => rfl⟩

theorem setAt_eq (c : Cache) (addr : Word) :
    c.setAt addr = c.sets.get (c.number addr % c.geometry.sets) := rfl

theorem lookup_setAt (c : Cache) (addr : Word) :
    (c.setAt addr).lookup (c.geometry.tagOf addr) = c.line (c.number addr) := by
  rw [CacheGeometry.tagOf_eq]
  rfl

theorem find_eq_none (h : c.Sound) (hf : c.find addr = none) : c.line (c.number addr) = none := by
  by_cases he : c.enabled = true
  · rw [← lookup_setAt, CacheSet.lookup]
    simp only [find, wayOf, if_pos he, Option.bind_eq_bind, Option.bind_eq_none_iff] at hf ⊢
    intro way hway
    apply Option.eq_none_iff_forall_ne_some.mpr
    intro l hl
    exact absurd (hf way hway l hl) (Option.some_ne_none _)
  · exact h.disabled (by simpa using he) _

structure Found (c : Cache) (addr : Word) (way : Nat) (l : CacheLine) : Prop where
  enabled : c.enabled = true
  wayOf : (c.setAt addr).wayOf (c.geometry.tagOf addr) = some way
  line : c.line (c.number addr) = some l
  tag : l.tag = c.geometry.tagOf addr

theorem found (hf : c.find addr = some (way, l)) : c.Found addr way l := by
  simp only [find, Cache.wayOf, Option.bind_eq_bind, Option.bind_eq_some_iff] at hf
  obtain ⟨w, hw, l', hl, hwl⟩ := hf
  cases hwl
  by_cases he : c.enabled = true
  · rw [if_pos he] at hw
    obtain ⟨k, hk, ht⟩ := CacheSet.lineAt_of_wayOf hw
    rw [hl] at hk
    cases hk
    refine ⟨he, hw, ?_, ht⟩
    rw [← lookup_setAt, CacheSet.lookup_of_wayOf hw, hl]
  · rw [if_neg he] at hw
    cases hw

theorem lookup_eq_line (h : c.Sound) (addr : Word) : c.lookup addr = c.line (c.number addr) := by
  rw [lookup]
  cases hf : c.find addr with
  | none => rw [find_eq_none h hf, Option.map_none]
  | some p => rw [(found hf).line, Option.map_some]

theorem contains_eq_isSome (h : c.Sound) (addr : Word) :
    c.contains addr = (c.line (c.number addr)).isSome := by
  rw [contains, lookup_eq_line h]

theorem Sound.tag_eq (h : c.Sound) (hl : c.line n = some l) : l.tag = n / c.geometry.sets := by
  obtain ⟨_, _, ht⟩ := (h.sets _).lookup_eq_some_iff.mp hl
  exact ht

theorem Sound.full (h : c.Sound) (hl : c.line n = some l) : l.data.length = c.lineBytes := by
  obtain ⟨i, hi, _⟩ := (h.sets _).lookup_eq_some_iff.mp hl
  exact (h.sets _).full i l hi

theorem Sound.number_victim (h : c.Sound) (hl : c.line n = some l) :
    (l.victim c.lineBytes n).number c.lineBytes = n :=
  l.number_victim h.lineSize.pos (h.inside n l hl)

theorem victimOf_eq (hs : n % c.geometry.sets = c.number addr % c.geometry.sets)
    (ht : l.tag = n / c.geometry.sets) : c.victimOf addr l = l.victim c.lineBytes n := by
  rw [victimOf, CacheLine.victim, ht, CacheGeometry.setOf_eq]
  congr 1
  rw [← lineBytes, ← number, ← hs, CacheGeometry.lineAddress_eq, lineBytes]

theorem number_mul_lt (c : Cache) (addr : Word) : c.number addr * c.lineBytes < Machine.limit :=
  Nat.lt_of_le_of_lt (Nat.div_mul_le_self _ _) addr.isLt

theorem line_withSet (c : Cache) (addr : Word) (s : CacheSet) (n : Nat) :
    (c.withSet addr s).line n =
      if n % c.geometry.sets = c.number addr % c.geometry.sets then s.lookup (n / c.geometry.sets)
      else c.line n := by
  simp only [line, withSet, Table.get_set]
  by_cases hn : n % c.geometry.sets = c.number addr % c.geometry.sets
  · rw [if_pos hn, if_pos (by exact hn.symm)]
  · rw [if_neg hn, if_neg (by exact Ne.symm hn)]

theorem eq_number_iff (hn : n % c.geometry.sets = c.number addr % c.geometry.sets) :
    n / c.geometry.sets = c.geometry.tagOf addr ↔ n = c.number addr := by
  rw [CacheGeometry.tagOf_eq]
  constructor
  · intro hd
    rw [← Nat.div_add_mod n c.geometry.sets, hd, hn]
    exact Nat.div_add_mod _ _
  · rintro rfl
    rfl

theorem becomes_withSet {s : CacheSet} (h : c.Sound) (he : c.enabled = true)
    (hs : s.Sound c.geometry.ways c.lineBytes)
    (hset : ∀ n, n % c.geometry.sets = c.number addr % c.geometry.sets →
      s.lookup (n / c.geometry.sets) = f n)
    (hother : ∀ n, n % c.geometry.sets ≠ c.number addr % c.geometry.sets → c.line n = f n)
    (hinside : ∀ n l, f n = some l → n = c.number addr ∨ c.line n ≠ none) :
    c.Becomes (c.withSet addr s) f := by
  have hline (n : Nat) : (c.withSet addr s).line n = f n := by
    rw [line_withSet]
    split
    · exact hset n ‹_›
    · exact hother n ‹_›
  refine ⟨⟨h.lineSize, h.sets_pos, h.ways_pos, ?_, ?_, ?_⟩, rfl, rfl, rfl, hline⟩
  · intro i
    rw [withSet, Table.get_set]
    split
    · exact hs
    · exact h.sets i
  · intro n l hl
    rw [hline] at hl
    rcases hinside n l hl with rfl | hn
    · exact c.number_mul_lt addr
    · obtain ⟨k, hk⟩ := Option.ne_none_iff_exists'.mp hn
      exact h.inside n k hk
  · intro hd
    have hd : c.enabled = false := hd
    rw [he] at hd
    cases hd

theorem becomes_update {s : CacheSet} {x : Option CacheLine} (h : c.Sound)
    (he : c.enabled = true) (hs : s.Sound c.geometry.ways c.lineBytes)
    (hx : ∀ t, s.lookup t =
      if t = c.geometry.tagOf addr then x else (c.setAt addr).lookup t) :
    c.Becomes (c.withSet addr s) fun n => if n = c.number addr then x else c.line n := by
  refine becomes_withSet h he hs ?_ ?_ ?_
  · intro n hn
    rw [hx, setAt_eq, ← hn]
    simp only [eq_number_iff hn, line]
  · intro n hn
    rw [if_neg (fun heq => hn (by rw [heq]))]
  · intro n l hl
    by_cases hn : n = c.number addr
    · exact Or.inl hn
    · rw [if_neg hn] at hl
      exact Or.inr (by rw [hl]; exact Option.some_ne_none l)

theorem invalidate_eq (hf : c.find addr = some (way, l)) :
    c.invalidate addr =
      (some (c.victimOf addr l), c.withSet addr ((c.setAt addr).put way none)) := by
  rw [invalidate, hf]

theorem invalidate_none (hf : c.find addr = none) : c.invalidate addr = (none, c) := by
  rw [invalidate, hf]

theorem Sound.becomes_none (h : c.Sound) (hn : c.line (c.number addr) = none) :
    c.Becomes c fun n => if n = c.number addr then none else c.line n := by
  refine ⟨h, rfl, rfl, rfl, ?_⟩
  intro n
  by_cases hn' : n = c.number addr
  · rw [if_pos hn', hn', hn]
  · rw [if_neg hn']

theorem Found.victimOf_eq (hl : c.Found addr way l) :
    c.victimOf addr l = l.victim c.lineBytes (c.number addr) :=
  Cache.victimOf_eq rfl (hl.tag.trans (CacheGeometry.tagOf_eq _ _))

theorem invalidate_fst (h : c.Sound) (addr : Word) :
    (c.invalidate addr).1 =
      (c.line (c.number addr)).map (·.victim c.lineBytes (c.number addr)) := by
  cases hf : c.find addr with
  | none => rw [invalidate_none hf, find_eq_none h hf, Option.map_none]
  | some p =>
    have hl := found hf
    rw [invalidate_eq hf, hl.line, Option.map_some, hl.victimOf_eq]

theorem invalidate_snd (h : c.Sound) (addr : Word) :
    c.Becomes (c.invalidate addr).2 fun n => if n = c.number addr then none else c.line n := by
  cases hf : c.find addr with
  | none =>
    rw [invalidate_none hf]
    exact h.becomes_none (find_eq_none h hf)
  | some p =>
    have hl := found hf
    rw [invalidate_eq hf]
    exact becomes_update h hl.enabled ((h.sets _).put_none hl.wayOf)
      ((h.sets _).lookup_put_none hl.wayOf)

def cleaned (l : CacheLine) : CacheLine := { l with dirty := false, shared := true }

theorem share_eq (hf : c.find addr = some (way, l)) :
    c.share addr =
      (if l.dirty then some (c.victimOf addr l) else none,
        c.withSet addr ((c.setAt addr).put way (some (cleaned l)))) := by
  rw [share, hf]
  rfl

theorem share_none (hf : c.find addr = none) : c.share addr = (none, c) := by
  rw [share, hf]

theorem share_fst (h : c.Sound) (addr : Word) :
    (c.share addr).1 =
      ((c.line (c.number addr)).filter (·.dirty)).map
        (·.victim c.lineBytes (c.number addr)) := by
  cases hf : c.find addr with
  | none => rw [share_none hf, find_eq_none h hf, Option.filter_none, Option.map_none]
  | some p =>
    have hl := found hf
    rw [share_eq hf, hl.line, Option.filter_some, hl.victimOf_eq]
    split <;> rfl

theorem share_snd (h : c.Sound) (addr : Word) :
    c.Becomes (c.share addr).2 fun n =>
      if n = c.number addr then (c.line (c.number addr)).map cleaned else c.line n := by
  cases hf : c.find addr with
  | none =>
    rw [share_none hf, find_eq_none h hf]
    exact h.becomes_none (find_eq_none h hf)
  | some p =>
    have hl := found hf
    have hfull := h.full hl.line
    rw [share_eq hf, hl.line]
    exact becomes_update h hl.enabled
      ((h.sets _).put_some hl.wayOf (cleaned p.2) hl.tag hfull)
      ((h.sets _).lookup_put_some hl.wayOf (cleaned p.2) hl.tag hfull)

theorem offsetOf_eq (h : c.Sound) (addr : Word) (length : Nat) :
    c.offsetOf addr length =
      if addr.toNat % c.lineBytes + length ≤ c.lineBytes then .ok (addr.toNat % c.lineBytes)
      else .error (.crossesLine c.name addr length) := by
  rw [offsetOf, h.lineSize.lineOffset_eq]

theorem Found.becomes_touch (hl : c.Found addr way l) (h : c.Sound) :
    c.Becomes (c.withSet addr ((c.setAt addr).touch way)) c.line := by
  refine becomes_withSet h hl.enabled ((h.sets _).touch ((h.sets _).wayOf_lt hl.wayOf)) ?_ ?_ ?_
  · intro n hn
    rw [CacheSet.lookup_touch, setAt_eq, ← hn]
    rfl
  · intro n _
    rfl
  · intro n l hl
    exact Or.inr (by rw [hl]; exact Option.some_ne_none l)

theorem read_ends (h : c.Sound) (addr : Word) (length : Nat) :
    (Cache.read addr length c : Outcome Cache ε _).Ends
      (fun data c' =>
        data = (c.line (c.number addr)).map
          (fun l => Block.slice l.data (addr.toNat % c.lineBytes) length) ∧
        c.Becomes c' c.line ∧
        (c.line (c.number addr) ≠ none → addr.toNat % c.lineBytes + length ≤ c.lineBytes))
      (fun _ _ => False) (c.lineBytes < addr.toNat % c.lineBytes + length) := by
  simp only [Cache.read, Step.bind_apply, Step.get_apply]
  cases hf : c.find addr with
  | none =>
    have hnone := find_eq_none h hf
    exact ⟨by rw [hnone]; rfl, h.becomes, fun hn => absurd hnone hn⟩
  | some p =>
    obtain ⟨way, l⟩ := p
    have hl := found hf
    simp only [offsetOf_eq h]
    by_cases hle : addr.toNat % c.lineBytes + length ≤ c.lineBytes
    · simp only [if_pos hle, Step.bind_apply, Step.check_ok, Step.set_apply, Step.pure_apply]
      exact ⟨by rw [hl.line]; rfl, hl.becomes_touch h, fun _ => hle⟩
    · simp only [if_neg hle, Step.bind_apply, Step.check_error]
      exact Nat.lt_of_not_le hle

theorem Found.becomes_written (hl : c.Found addr way l) (h : c.Sound) {data : List Byte}
    (hle : addr.toNat % c.lineBytes + data.length ≤ c.lineBytes) :
    c.Becomes (c.withSet addr
        (((c.setAt addr).put way (some (l.written (addr.toNat % c.lineBytes) data))).touch way))
      fun n => if n = c.number addr then some (l.written (addr.toNat % c.lineBytes) data)
        else c.line n := by
  have hfull : (l.written (addr.toNat % c.lineBytes) data).data.length = c.lineBytes := by
    rw [CacheLine.written, Block.length_splice (by rw [h.full hl.line]; exact hle), h.full hl.line]
  have hput := (h.sets _).put_some hl.wayOf (l.written _ data) hl.tag hfull
  refine becomes_update h hl.enabled (hput.touch ((h.sets _).wayOf_lt hl.wayOf)) ?_
  intro t
  rw [CacheSet.lookup_touch]
  exact (h.sets _).lookup_put_some hl.wayOf (l.written _ data) hl.tag hfull t

theorem write_ends (h : c.Sound) (addr : Word) (data : List Byte) :
    (Cache.write addr data c : Outcome Cache ε _).Ends
      (fun hit c' =>
        hit = (c.line (c.number addr)).isSome ∧
        (c.Becomes c' fun n =>
          if n = c.number addr then
            (c.line (c.number addr)).map (·.written (addr.toNat % c.lineBytes) data)
          else c.line n) ∧
        (c.line (c.number addr) ≠ none → addr.toNat % c.lineBytes + data.length ≤ c.lineBytes))
      (fun _ _ => False) (c.lineBytes < addr.toNat % c.lineBytes + data.length) := by
  simp only [Cache.write, Step.bind_apply, Step.get_apply]
  cases hf : c.find addr with
  | none =>
    have hnone := find_eq_none h hf
    rw [hnone]
    exact ⟨rfl, h.becomes_none hnone, fun hn => absurd rfl hn⟩
  | some p =>
    obtain ⟨way, l⟩ := p
    have hl := found hf
    simp only [offsetOf_eq h]
    by_cases hle : addr.toNat % c.lineBytes + data.length ≤ c.lineBytes
    · simp only [if_pos hle, Step.bind_apply, Step.check_ok, Step.set_apply, Step.pure_apply]
      rw [hl.line]
      exact ⟨rfl, hl.becomes_written h hle, fun _ => hle⟩
    · simp only [if_neg hle, Step.bind_apply, Step.check_error]
      exact Nat.lt_of_not_le hle

theorem fill_apply (he : c.enabled = true) {data : List Byte} (hd : data.length = c.lineBytes)
    (addr : Word) (dirty : Bool) :
    (Cache.fill addr data dirty : Step Cache ε _) c =
      .done (c.displaced addr) (c.filled addr data dirty) := by
  simp [Cache.fill, Step.bind_apply, he, hd]

theorem fill_disabled (he : ¬c.enabled = true) (addr : Word) (data : List Byte) (dirty : Bool) :
    (Cache.fill addr data dirty : Step Cache ε _) c = .done none c := by
  simp only [Cache.fill, Step.bind_apply, Step.get_apply, he]
  rfl

theorem fill_partial (he : c.enabled = true) {data : List Byte} (hd : data.length ≠ c.lineBytes)
    (addr : Word) (dirty : Bool) : (Cache.fill addr data dirty : Step Cache ε _) c =
      .broken (.partialLine c.name data.length c.lineBytes) := by
  simp only [Cache.fill, Step.bind_apply, Step.get_apply, he, Bool.not_true, Bool.false_eq_true,
    if_false, if_pos hd, Step.check_error]

def Steady {α : Type} (x : Step Cache ε α) : Prop :=
  ∀ c, (x c).Ends (fun _ c' => c'.enabled = c.enabled) (fun _ _ => False) True

/-- What a read and a write have in common: only the set of a line that is there changes. -/
theorem steady_access {α : Type} (addr : Word) (length : Nat) (miss : α) (hit : CacheLine → Nat → α)
    (after : CacheSet → Nat → CacheLine → Nat → CacheSet) :
    Steady (do
      let c ← get
      match c.find addr with
      | none => return miss
      | some (way, line) =>
        let offset ← Step.check (c.offsetOf addr length)
        set (c.withSet addr (after (c.setAt addr) way line offset))
        return hit line offset : Step Cache ε α) := by
  intro c
  simp only [Step.bind_apply, Step.get_apply]
  cases c.find addr with
  | none => rfl
  | some found =>
    cases c.offsetOf addr length with
    | error b => trivial
    | ok offset => rfl

theorem steady_read (addr : Word) (length : Nat) :
    Steady (Cache.read addr length : Step Cache ε _) :=
  steady_access addr length none (fun line offset => some (Block.slice line.data offset length))
    fun s way _ _ => s.touch way

theorem steady_write (addr : Word) (data : List Byte) :
    Steady (Cache.write addr data : Step Cache ε _) :=
  steady_access addr data.length false (fun _ _ => true)
    fun s way line offset => (s.put way (line.written offset data)).touch way

theorem steady_fill (addr : Word) (data : List Byte) (dirty : Bool) :
    Steady (Cache.fill addr data dirty : Step Cache ε _) := by
  intro c
  by_cases he : c.enabled = true
  · by_cases hd : data.length = c.lineBytes
    · rw [fill_apply he hd]
      rfl
    · rw [fill_partial he hd]
      trivial
  · rw [fill_disabled he]
    rfl

theorem steady_invalidate (addr : Word) :
    Steady (modifyGet (·.invalidate addr) : Step Cache ε _) := by
  intro c
  change (c.invalidate addr).2.enabled = c.enabled
  unfold Cache.invalidate
  split <;> rfl

theorem steady_share (addr : Word) : Steady (modifyGet (·.share addr) : Step Cache ε _) := by
  intro c
  change (c.share addr).2.enabled = c.enabled
  unfold Cache.share
  split <;> rfl

theorem steady_flush : Steady (modifyGet Cache.flush : Step Cache ε _) := fun _ => rfl

theorem steady_cleared : Steady (modify Cache.cleared : Step Cache ε _) := fun _ => rfl

theorem displaced_spec (h : c.Sound) (hv : c.displaced addr = some v) :
    ∃ m d, m ≠ c.number addr ∧ m % c.geometry.sets = c.number addr % c.geometry.sets ∧
      (c.setAt addr).displaced (c.geometry.tagOf addr) = some d ∧ d.tag = m / c.geometry.sets ∧
      c.line m = some d ∧ v = d.victim c.lineBytes m := by
  obtain ⟨d, hd, rfl⟩ := Option.map_eq_some_iff.mp hv
  have hlt : c.geometry.setOf addr < c.geometry.sets := Nat.mod_lt _ h.sets_pos
  have hmod : (d.tag * c.geometry.sets + c.geometry.setOf addr) % c.geometry.sets =
      c.number addr % c.geometry.sets := CacheGeometry.place_mod hlt
  have hdiv : d.tag = (d.tag * c.geometry.sets + c.geometry.setOf addr) / c.geometry.sets :=
    (CacheGeometry.place_div hlt).symm
  refine ⟨d.tag * c.geometry.sets + c.geometry.setOf addr, d, ?_, hmod, hd, hdiv, ?_,
    victimOf_eq hmod hdiv⟩
  · intro heq
    refine (CacheSet.displaced_eq_some_iff.mp hd).2 ?_
    rw [hdiv]
    exact (eq_number_iff hmod).mpr heq
  · rw [line, hmod, ← hdiv]
    exact (h.sets _).lookup_displaced hd

theorem displaced_any_iff (h : c.Sound) :
    (c.displaced addr).any (·.number c.lineBytes == n) = true ↔
      n % c.geometry.sets = c.number addr % c.geometry.sets ∧
        CacheSet.holds (n / c.geometry.sets)
          ((c.setAt addr).displaced (c.geometry.tagOf addr)) = true := by
  rw [Option.any_eq_true, CacheSet.holds_iff]
  constructor
  · rintro ⟨v, hv, hn⟩
    obtain ⟨m, d, _, hmod, hd, htag, hline, rfl⟩ := displaced_spec h hv
    rw [h.number_victim hline, beq_iff_eq] at hn
    subst hn
    exact ⟨hmod, d, hd, htag⟩
  · rintro ⟨hmod, d, hd, htag⟩
    have hv : c.displaced addr = some (c.victimOf addr d) := by rw [displaced, hd, Option.map_some]
    obtain ⟨m, d', _, hmod', hd', htag', hline, hveq⟩ := displaced_spec h hv
    obtain rfl : d = d' := Option.some.inj (hd.symm.trans hd')
    have hm : m = n := by
      rw [← Nat.div_add_mod m c.geometry.sets, ← Nat.div_add_mod n c.geometry.sets, ← htag,
        ← htag', hmod, hmod']
    refine ⟨_, hv, ?_⟩
    rw [hveq, h.number_victim hline, hm, beq_iff_eq]

theorem filled_becomes (h : c.Sound) (he : c.enabled = true) (addr : Word) {data : List Byte}
    (hd : data.length = c.lineBytes) (dirty : Bool) :
    c.Becomes (c.filled addr data dirty) fun n =>
      if n = c.number addr then some ⟨c.geometry.tagOf addr, dirty, false, data⟩
      else if (c.displaced addr).any (·.number c.lineBytes == n) then none
      else c.line n := by
  refine becomes_withSet h he ((h.sets _).fill h.ways_pos hd) ?_ ?_ ?_
  · intro n hn
    rw [setAt_eq, (h.sets _).lookup_fill h.ways_pos hd, ← setAt_eq]
    simp only [eq_number_iff hn, displaced_any_iff h, hn, true_and]
    rw [setAt_eq, ← hn]
    rfl
  · intro n hn
    have hany : ¬(c.displaced addr).any (·.number c.lineBytes == n) = true :=
      fun hany => hn ((displaced_any_iff h).mp hany).1
    rw [if_neg (fun heq => hn (by rw [heq])), if_neg hany]
  · intro n l hl
    by_cases hn : n = c.number addr
    · exact Or.inl hn
    · rw [if_neg hn] at hl
      split at hl
      · cases hl
      · exact Or.inr (by rw [hl]; exact Option.some_ne_none l)

def victims (c : Cache) : List Victim :=
  (List.range c.geometry.sets).flatMap fun i =>
    (c.sets.get i).held.map fun line =>
      ⟨c.geometry.lineAddress i line.tag, line.dirty, line.data⟩

theorem mem_victims (h : c.Sound) :
    v ∈ c.victims ↔ ∃ n l, c.line n = some l ∧ v = l.victim c.lineBytes n := by
  simp only [victims, List.mem_flatMap, List.mem_range, List.mem_map]
  constructor
  · rintro ⟨i, hi, l, hl, rfl⟩
    refine ⟨l.tag * c.geometry.sets + i, l, ?_, rfl⟩
    rw [line, CacheGeometry.place_div hi, CacheGeometry.place_mod hi]
    exact (CacheSet.mem_held (h.sets i)).mp hl
  · rintro ⟨n, l, hl, rfl⟩
    have htag := h.tag_eq hl
    refine ⟨n % c.geometry.sets, Nat.mod_lt _ h.sets_pos, l, ?_, ?_⟩
    · rw [CacheSet.mem_held (h.sets _), htag]
      exact hl
    · rw [htag, CacheGeometry.lineAddress_eq]
      rfl

theorem dirtyVictims_eq (c : Cache) : c.dirtyVictims = c.victims.filter (·.dirty) := by
  rw [dirtyVictims, victims, List.filter_flatMap]
  congr 1
  funext i
  rw [CacheSet.dirtyLines_eq, List.filter_map]
  refine List.map_congr_left ?_
  intro l hl
  rw [(List.mem_filter.mp hl).2]

theorem cleared_becomes (h : c.Sound) : c.Becomes c.cleared fun _ => none := by
  have hline (n : Nat) : c.cleared.line n = none := by
    simp only [line, cleared, Table.get_map]
    exact CacheSet.lookup_cleared _ _
  refine ⟨⟨h.lineSize, h.sets_pos, h.ways_pos, ?_, ?_, fun _ => hline⟩, rfl, rfl, rfl, hline⟩
  · intro i
    rw [cleared, Table.get_map]
    exact (h.sets i).cleared
  · intro n l hl
    rw [hline] at hl
    cases hl

theorem ofConfig_spec {name : String} {cfg : CacheConfig} (h : ofConfig name cfg = .ok c) :
    c.Sound ∧ c.lineBytes = cfg.lineBytes ∧ c.enabled = cfg.enabled ∧ ∀ n, c.line n = none := by
  obtain ⟨_, hvalid, h⟩ := ConfigFailure.bind_eq_ok h
  obtain ⟨_, _, h⟩ := ConfigFailure.ofBreach_then h
  cases h
  obtain ⟨hsize, hways, hsets⟩ := CacheConfig.valid_of_validate hvalid
  have hline (n : Nat) : CacheSet.lookup ((Table.ofBlank (CacheSet.empty cfg.policy cfg.ways)).get
      (n % cfg.sets)) (n / cfg.sets) = none := by
    rw [Table.get_ofBlank, CacheSet.lookup_empty]
  refine ⟨⟨hsize, hsets, hways, ?_, ?_, fun _ => hline⟩, rfl, rfl, hline⟩
  · intro i
    rw [Table.get_ofBlank]
    exact CacheSet.sound_empty _ _ hways
  · intro n l hl
    exact absurd ((hline n).symm.trans hl) (Option.some_ne_none l).symm

end Cache

end EV6
