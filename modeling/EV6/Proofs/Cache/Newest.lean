import EV6.Cache.Hierarchy
import EV6.Proofs.Cache.Lines
import EV6.Proofs.Storage.Memory
/-!
The newest copy of every byte: that of the data cache, else that of the board cache, else that of
memory. A call of the hierarchy brings lines in, gives lines up and has lines written to memory; what
becomes of the newest copies follows from these three.
-/

namespace EV6

namespace MemoryHierarchy

variable {π : Type} {h h' : MemoryHierarchy π} {content : π → Memory} {ok : π → Prop} {m : Memory} {n a : Nat}
  {l : CacheLine} {fd fb : Nat → Option CacheLine}

def lineBytes (h : MemoryHierarchy π) : Nat := h.dcache.lineBytes

def number (h : MemoryHierarchy π) (addr : Word) : Nat := addr.toNat / h.lineBytes

def copy (h : MemoryHierarchy π) (n : Nat) : Option CacheLine :=
  (h.dcache.line n).or (h.bcache.line n)

def newestOver (h : MemoryHierarchy π) (m : Memory) : Memory := fun a =>
  match h.copy (a / h.lineBytes) with
  | some l => l.data.getD (a % h.lineBytes) 0
  | none => m a

def newest (content : π → Memory) (h : MemoryHierarchy π) : Memory :=
  h.newestOver (content h.port)

theorem newestOver_of_none (hn : h.copy (a / h.lineBytes) = none) (m : Memory) :
    h.newestOver m a = m a := by
  rw [newestOver, hn]

theorem newestOver_of_some (hn : h.copy (a / h.lineBytes) = some l) (m m' : Memory) :
    h.newestOver m a = h.newestOver m' a := by
  rw [newestOver, newestOver, hn]

def blockOver (h : MemoryHierarchy π) (m : Memory) (n : Nat) : List Byte :=
  match h.copy n with
  | some l => l.data
  | none => m.bytes (n * h.lineBytes) h.lineBytes

def body (h : MemoryHierarchy π) (n : Nat) : Option (Bool × List Byte) :=
  (h.copy n).map fun l => (l.dirty, l.data)

theorem body_eq_none_iff : h.body n = none ↔ h.copy n = none := Option.map_eq_none_iff

theorem body_of_copy (hl : h.copy n = some l) : h.body n = some (l.dirty, l.data) := by
  rw [body, hl, Option.map_some]

theorem blockOver_eq_body (h : MemoryHierarchy π) (m : Memory) (n : Nat) :
    h.blockOver m n =
      ((h.body n).map (·.2)).getD (m.bytes (n * h.lineBytes) h.lineBytes) := by
  rw [blockOver, body]
  cases h.copy n <;> rfl

structure Sound (ok : π → Prop) (h : MemoryHierarchy π) : Prop where
  port : ok h.port
  icache : h.icache.Sound
  dcache : h.dcache.Sound
  bcache : h.bcache.Sound
  icacheLine : h.icache.lineBytes = h.lineBytes
  bcacheLine : h.bcache.lineBytes = h.lineBytes
  exclusive : ∀ n, h.dcache.line n = none ∨ h.bcache.line n = none
  uncached : h.dcache.enabled = false → ∀ n, h.bcache.line n = none

def Coherent (content : π → Memory) (h : MemoryHierarchy π) : Prop :=
  ∀ n l, h.copy n = some l → l.dirty = false →
    l.data = (content h.port).bytes (n * h.lineBytes) h.lineBytes

namespace Sound

theorem cache (hs : h.Sound ok) (name : CacheName) : (h.cache name).Sound := by
  cases name with
  | icache => exact hs.icache
  | dcache => exact hs.dcache
  | bcache => exact hs.bcache

theorem lineSize (hs : h.Sound ok) : LineSize h.lineBytes := hs.dcache.lineSize

theorem copy_of_dcache (hl : h.dcache.line n = some l) : h.copy n = some l := by
  rw [copy, hl, Option.some_or]

theorem copy_of_bcache (hs : h.Sound ok) (hl : h.bcache.line n = some l) : h.copy n = some l := by
  rcases hs.exclusive n with hd | hb
  · rw [copy, hd, Option.none_or, hl]
  · rw [hb] at hl
    cases hl

theorem copy_cases (hl : h.copy n = some l) :
    h.dcache.line n = some l ∨ h.bcache.line n = some l := by
  rw [copy, Option.or_eq_some_iff] at hl
  rcases hl with hd | ⟨_, hb⟩
  · exact Or.inl hd
  · exact Or.inr hb

theorem full (hs : h.Sound ok) (hl : h.copy n = some l) : l.data.length = h.lineBytes := by
  rcases copy_cases hl with hd | hb
  · exact hs.dcache.full hd
  · exact (hs.bcache.full hb).trans hs.bcacheLine

theorem inside (hs : h.Sound ok) (hl : h.copy n = some l) : n * h.lineBytes < Machine.limit := by
  rcases copy_cases hl with hd | hb
  · exact hs.dcache.inside n l hd
  · exact hs.bcacheLine ▸ hs.bcache.inside n l hb

theorem number_victim (hs : h.Sound ok) (hl : h.copy n = some l) :
    (l.victim h.lineBytes n).number h.lineBytes = n :=
  l.number_victim hs.lineSize.pos (hs.inside hl)

theorem length_blockOver (hs : h.Sound ok) (m : Memory) (n : Nat) :
    (h.blockOver m n).length = h.lineBytes := by
  rw [blockOver]
  split
  · exact hs.full ‹_›
  · exact Memory.length_bytes m _ _

theorem line_byte (hs : h.Sound ok) (m : Memory) (a : Nat) :
    (m.bytes (a / h.lineBytes * h.lineBytes) h.lineBytes).getD (a % h.lineBytes) 0 = m a := by
  rw [Memory.getD_bytes (Nat.mod_lt a hs.lineSize.pos), Nat.div_add_mod']

theorem newestOver_eq (hs : h.Sound ok) (m : Memory) (a : Nat) :
    h.newestOver m a = (h.blockOver m (a / h.lineBytes)).getD (a % h.lineBytes) 0 := by
  rw [newestOver, blockOver]
  cases h.copy (a / h.lineBytes) with
  | some l => rfl
  | none => exact (line_byte hs m a).symm

theorem blockOver_eq (hs : h.Sound ok) (m : Memory) (n : Nat) :
    h.blockOver m n = (h.newestOver m).bytes (n * h.lineBytes) h.lineBytes := by
  have hlen := hs.length_blockOver m n
  refine List.ext_getElem (by rw [hlen, Memory.length_bytes]) ?_
  intro i hi _
  rw [hlen] at hi
  have hdiv : (n * h.lineBytes + i) / h.lineBytes = n := by
    rw [Nat.mul_comm, Nat.mul_add_div hs.lineSize.pos, Nat.div_eq_of_lt hi, Nat.add_zero]
  have hmod : (n * h.lineBytes + i) % h.lineBytes = i := by
    rw [Nat.mul_comm, Nat.mul_add_mod, Nat.mod_eq_of_lt hi]
  rw [Memory.getElem_bytes, hs.newestOver_eq, hdiv, hmod, List.getD_eq_getElem?_getD,
    List.getElem?_eq_getElem (by rw [hlen]; exact hi), Option.getD_some]

end Sound

structure Alike (h h' : MemoryHierarchy π) : Prop where
  lineBytes : h'.lineBytes = h.lineBytes
  dcacheEnabled : h'.dcache.enabled = h.dcache.enabled
  bcacheEnabled : h'.bcache.enabled = h.bcache.enabled

theorem Alike.refl (h : MemoryHierarchy π) : h.Alike h := ⟨rfl, rfl, rfl⟩

theorem Alike.trans {h₁ h₂ : MemoryHierarchy π} (h₀₁ : h.Alike h₁) (h₁₂ : h₁.Alike h₂) :
    h.Alike h₂ :=
  ⟨h₁₂.lineBytes.trans h₀₁.lineBytes, h₁₂.dcacheEnabled.trans h₀₁.dcacheEnabled,
    h₁₂.bcacheEnabled.trans h₀₁.bcacheEnabled⟩

theorem newest_congr (ha : h.Alike h') (hc : ∀ n, h'.copy n = h.copy n)
    (hp : content h'.port = content h.port) : newest content h' = newest content h := by
  funext a
  rw [newest, newest, newestOver, newestOver, ha.lineBytes, hc, hp]

structure Becomes (h h' : MemoryHierarchy π) (fd fb : Nat → Option CacheLine) : Prop where
  icache : ∃ fi, h.icache.Becomes h'.icache fi
  dcache : h.dcache.Becomes h'.dcache fd
  bcache : h.bcache.Becomes h'.bcache fb

namespace Becomes

theorem alike (hb : h.Becomes h' fd fb) : h.Alike h' :=
  ⟨hb.dcache.lineBytes, hb.dcache.enabled, hb.bcache.enabled⟩

theorem copy (hb : h.Becomes h' fd fb) (n : Nat) : h'.copy n = (fd n).or (fb n) := by
  rw [MemoryHierarchy.copy, hb.dcache.line, hb.bcache.line]

theorem sound (hb : h.Becomes h' fd fb) (hs : h.Sound ok) (hx : ∀ n, fd n = none ∨ fb n = none)
    (hu : h.dcache.enabled = false → ∀ n, fb n = none) (hp : ok h'.port) : h'.Sound ok := by
  obtain ⟨fi, hi⟩ := hb.icache
  refine ⟨hp, hi.sound, hb.dcache.sound, hb.bcache.sound, ?_, ?_, ?_, ?_⟩
  · exact (hi.lineBytes.trans hs.icacheLine).trans hb.dcache.lineBytes.symm
  · exact (hb.bcache.lineBytes.trans hs.bcacheLine).trans hb.dcache.lineBytes.symm
  · intro n
    rw [hb.dcache.line, hb.bcache.line]
    exact hx n
  · intro hd n
    rw [hb.bcache.line]
    exact hu (hb.dcache.enabled.symm.trans hd) n

end Becomes

def saved (vs : List Victim) (m : Memory) : Memory :=
  vs.foldl (fun m v => m.write v.addr.toNat v.data) m

def Copies (h : MemoryHierarchy π) (vs : List Victim) : Prop :=
  ∀ v ∈ vs, ∃ n l, h.copy n = some l ∧ v = l.victim h.lineBytes n

def Covers (lineBytes : Nat) (vs : List Victim) (a : Nat) : Prop :=
  ∃ v ∈ vs, v.number lineBytes = a / lineBytes

instance (lineBytes : Nat) (vs : List Victim) (a : Nat) : Decidable (Covers lineBytes vs a) :=
  inferInstanceAs (Decidable (∃ v ∈ vs, v.number lineBytes = a / lineBytes))

theorem covers_cons {lineBytes : Nat} {v : Victim} {vs : List Victim} :
    Covers lineBytes (v :: vs) a ↔ v.number lineBytes = a / lineBytes ∨ Covers lineBytes vs a := by
  simp [Covers]

theorem write_victim (hs : h.Sound ok) (hl : h.copy n = some l) (m' : Memory) (a : Nat) :
    m'.write (n * h.lineBytes) l.data a =
      if n = a / h.lineBytes then h.newestOver m a else m' a := by
  have hpos := hs.lineSize.pos
  have hfull := hs.full hl
  have hdm := Nat.div_add_mod' a h.lineBytes
  have hlt := Nat.mod_lt a hpos
  by_cases hn : n = a / h.lineBytes
  · rw [if_pos hn, newestOver, ← hn, hl]
    rw [← hn] at hdm
    have hsub : a - n * h.lineBytes = a % h.lineBytes := by omega
    rw [Memory.write_of_mem (by omega) (by omega)]
    simp only [hsub, List.getD_eq_getElem?_getD]
    rw [List.getElem?_eq_getElem (by omega), Option.getD_some]
  · rw [if_neg hn]
    rcases Nat.lt_or_gt_of_ne hn with hlt' | hgt
    · have := Nat.mul_le_mul_right h.lineBytes (Nat.succ_le_of_lt hlt')
      rw [Nat.succ_mul] at this
      exact Memory.write_of_le (by omega)
    · have := Nat.mul_le_mul_right h.lineBytes (Nat.succ_le_of_lt hgt)
      rw [Nat.succ_mul] at this
      exact Memory.write_of_lt (by omega)

theorem saved_apply (hs : h.Sound ok) {vs : List Victim} (hc : h.Copies vs) (m' : Memory) (a : Nat) :
    saved vs m' a = if Covers h.lineBytes vs a then h.newestOver m a else m' a := by
  induction vs generalizing m' with
  | nil => rfl
  | cons v rest ih =>
    obtain ⟨n, l, hl, rfl⟩ := hc v List.mem_cons_self
    have hrest : h.Copies rest := fun w hw => hc w (List.mem_cons_of_mem _ hw)
    have haddr := l.addr_victim (hs.inside hl)
    have hfirst := write_victim (m := m) hs hl m' a
    have hstep := ih hrest (m'.write (n * h.lineBytes) l.data)
    simp only [covers_cons, hs.number_victim hl]
    rw [saved, List.foldl_cons, haddr]
    refine hstep.trans ?_
    by_cases hcov : Covers h.lineBytes rest a
    · rw [if_pos hcov, if_pos (Or.inr hcov)]
    · rw [if_neg hcov]
      refine hfirst.trans ?_
      simp only [hcov, or_false]

structure Traffic where
  entering : List Nat
  leaving : List Victim
  written : List Victim

def Traffic.silent : Traffic := ⟨[], [], []⟩

def Lost (h : MemoryHierarchy π) (t : Traffic) (a : Nat) : Prop :=
  Covers h.lineBytes t.leaving a ∧ ¬Covers h.lineBytes t.written a

instance (h : MemoryHierarchy π) (t : Traffic) (a : Nat) : Decidable (h.Lost t a) :=
  inferInstanceAs (Decidable (_ ∧ _))

structure Moves (content : π → Memory) (ok : π → Prop) (t : Traffic)
    (h h' : MemoryHierarchy π) : Prop where
  sound : h'.Sound ok
  alike : h.Alike h'
  memory : content h'.port = saved t.written (content h.port)
  copies : h.Copies t.written
  entering : ∀ n, h'.copy n ≠ none → h.copy n ≠ none ∨ n ∈ t.entering
  gone : ∀ v ∈ t.leaving, h'.copy (v.number h.lineBytes) = none
  kept : ∀ n, (∀ v ∈ t.leaving, v.number h.lineBytes ≠ n) →
    h'.blockOver (content h.port) n = h.blockOver (content h.port) n

structure Settles (content : π → Memory) (ok : π → Prop) (t : Traffic)
    (h h' : MemoryHierarchy π) : Prop extends Moves content ok t h h' where
  leavingCopies : h.Copies t.leaving
  dirtyWritten : ∀ v ∈ t.leaving, v.dirty = true → v ∈ t.written
  clean : ∀ n l', h'.copy n = some l' → l'.dirty = false →
    h'.blockOver (content h.port) n = (content h.port).bytes (n * h.lineBytes) h.lineBytes ∨
      (∃ l, h.copy n = some l ∧ l.dirty = false) ∨ ∃ v ∈ t.written, v.number h.lineBytes = n

namespace Moves

variable {t : Traffic}

theorem congr {h'' : MemoryHierarchy π} (hm : Moves content ok t h h') (hs : h''.Sound ok)
    (ha : h'.Alike h'') (hc : ∀ n, h''.copy n = h'.copy n)
    (hp : content h''.port = content h'.port) : Moves content ok t h h'' where
  sound := hs
  alike := hm.alike.trans ha
  memory := hp.trans hm.memory
  copies := hm.copies
  entering n hn := hm.entering n (by rw [← hc]; exact hn)
  gone v hv := (hc _).trans (hm.gone v hv)
  kept n hn := by
    rw [← hm.kept n hn, blockOver, blockOver, hc, ha.lineBytes]

theorem refl (hs : h.Sound ok) : Moves content ok .silent h h where
  sound := hs
  alike := .refl h
  memory := rfl
  copies v hv := by cases hv
  entering n hn := Or.inl hn
  gone v hv := by cases hv
  kept n _ := rfl

theorem newestOver_eq (hm : Moves content ok t h h') (hs : h.Sound ok)
    (ha : ¬Covers h.lineBytes t.leaving a) :
    h'.newestOver (content h.port) a = newest content h a := by
  have hkept := hm.kept (a / h.lineBytes) fun v hv hn => ha ⟨v, hv, hn⟩
  rw [newest, hm.sound.newestOver_eq, hs.newestOver_eq, hm.alike.lineBytes, hkept]

theorem newest_eq (hm : Moves content ok t h h') (hs : h.Sound ok) (a : Nat) :
    newest content h' a = if h.Lost t a then content h.port a else newest content h a := by
  cases hc : h'.copy (a / h'.lineBytes) with
  | some l =>
    have ha : ¬Covers h.lineBytes t.leaving a := by
      rintro ⟨v, hv, hn⟩
      rw [hm.alike.lineBytes, ← hn, hm.gone v hv] at hc
      cases hc
    rw [if_neg (fun hlost => ha hlost.1), ← hm.newestOver_eq hs ha]
    exact newestOver_of_some hc _ _
  | none =>
    rw [newest, newestOver_of_none hc, hm.memory, saved_apply hs hm.copies]
    by_cases hw : Covers h.lineBytes t.written a
    · rw [if_pos hw, if_neg (fun hlost => hlost.2 hw)]
      rfl
    · rw [if_neg hw]
      by_cases ha : Covers h.lineBytes t.leaving a
      · rw [if_pos ⟨ha, hw⟩]
      · rw [if_neg (fun hlost => ha hlost.1), ← hm.newestOver_eq hs ha, newestOver_of_none hc]

end Moves

namespace Coherent

theorem newest_of_clean (hc : Coherent content h) (hs : h.Sound ok) (hl : h.copy n = some l)
    (hd : l.dirty = false) (ha : n = a / h.lineBytes) : newest content h a = content h.port a := by
  rw [newest, hs.newestOver_eq, blockOver, ← ha, hl]
  simp only [hc n l hl hd]
  rw [ha]
  exact hs.line_byte _ a

end Coherent

namespace Settles

variable {t : Traffic}

theorem congr {h'' : MemoryHierarchy π} (hm : Settles content ok t h h') (hs : h''.Sound ok)
    (ha : h'.Alike h'') (hc : ∀ n, h''.copy n = h'.copy n)
    (hp : content h''.port = content h'.port) : Settles content ok t h h'' where
  toMoves := hm.toMoves.congr hs ha hc hp
  leavingCopies := hm.leavingCopies
  dirtyWritten := hm.dirtyWritten
  clean n l' hl' hd := by
    have hblock : h''.blockOver (content h.port) n = h'.blockOver (content h.port) n := by
      rw [blockOver, blockOver, hc, ha.lineBytes]
    rw [hblock]
    exact hm.clean n l' (by rw [← hc]; exact hl') hd

theorem refl (hs : h.Sound ok) : Settles content ok .silent h h where
  toMoves := .refl hs
  leavingCopies v hv := by cases hv
  dirtyWritten v hv := by cases hv
  clean n l hl hd := Or.inr (Or.inl ⟨l, hl, hd⟩)

theorem newest_eq (hm : Settles content ok t h h') (hs : h.Sound ok) (hc : Coherent content h) :
    newest content h' = newest content h := by
  funext a
  rw [hm.toMoves.newest_eq hs]
  by_cases hlost : h.Lost t a
  · rw [if_pos hlost]
    obtain ⟨⟨v, hv, hn⟩, hw⟩ := hlost
    obtain ⟨n, l, hl, rfl⟩ := hm.leavingCopies v hv
    rw [hs.number_victim hl] at hn
    have hd : l.dirty = false := by
      cases hdirty : l.dirty with
      | false => rfl
      | true =>
        refine absurd ⟨_, hm.dirtyWritten _ hv hdirty, ?_⟩ hw
        rw [hs.number_victim hl, hn]
    exact (hc.newest_of_clean hs hl hd hn).symm
  · rw [if_neg hlost]

theorem memory_eq (hm : Settles content ok t h h') (hs : h.Sound ok) (hc : Coherent content h)
    {l' : CacheLine} (hl' : h'.copy n = some l') (hd : l'.dirty = false)
    (ha : a / h.lineBytes = n) : content h'.port a = newest content h a := by
  rw [hm.memory, saved_apply hs hm.copies]
  by_cases hw : Covers h.lineBytes t.written a
  · rw [if_pos hw]
    rfl
  · rw [if_neg hw]
    rcases hm.clean n l' hl' hd with hblock | ⟨l, hl, hld⟩ | ⟨v, hv, hn⟩
    · rw [← ha, ← hm.alike.lineBytes] at hl'
      rw [← hm.newest_eq hs hc, newest, newestOver_of_some hl' _ (content h.port),
        hm.sound.newestOver_eq, hm.alike.lineBytes, ha, hblock, ← ha]
      exact (hs.line_byte _ a).symm
    · exact (hc.newest_of_clean hs hl hld ha.symm).symm
    · exact absurd ⟨v, hv, hn.trans ha.symm⟩ hw

theorem coherent (hm : Settles content ok t h h') (hs : h.Sound ok) (hc : Coherent content h) :
    Coherent content h' := by
  intro n l' hl' hd
  have hblock := hm.sound.blockOver_eq (content h'.port) n
  rw [blockOver, hl'] at hblock
  refine hblock.trans (Memory.bytes_congr ?_)
  intro a hle hlt
  rw [hm.alike.lineBytes] at hle hlt
  have ha : a / h.lineBytes = n := by
    rw [Nat.div_eq_iff hs.lineSize.pos]
    omega
  rw [hm.memory_eq hs hc hl' hd ha, ← hm.newest_eq hs hc]
  rfl

end Settles

end MemoryHierarchy

end EV6
