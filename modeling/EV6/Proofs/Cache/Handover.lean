import EV6.Proofs.Cache.Pair
/-!
A dirty line passes from one hierarchy to the other by way of the device. Once its holder has written
it back and the other has dropped what it had of the line, the device and every copy agree on it, and
they go on agreeing until one of the two writes to it.
-/

namespace EV6

namespace MemoryHierarchy

open Outcome

variable {π : Type} {h h' : MemoryHierarchy π} {content : π → Memory} {ok : π → Prop}
  {answers : Word → Nat → Prop} {c give : Call} {m : Memory} {t : Traffic} {l : CacheLine}
  {n a size : Nat} {addr start : Word}

namespace Call

def WritesAt (a : Nat) : Call → Prop
  | write addr data => addr.toNat ≤ a ∧ a < addr.toNat + data.length
  | _ => False

def Writes (lineBytes n : Nat) (c : Call) : Prop := ∃ a, a / lineBytes = n ∧ c.WritesAt a

def HandsOver (lineBytes n : Nat) : Call → Prop
  | flush => True
  | evict addr => addr.toNat / lineBytes = n
  | probeInvalidate addr => addr.toNat / lineBytes = n
  | probeShare addr => addr.toNat / lineBytes = n
  | _ => False

theorem apply_of_not_writesAt (hc : ¬c.WritesAt a) (m : Memory) : c.apply m a = m a := by
  cases c with
  | write addr data => exact Memory.write_of_outside hc
  | _ => rfl

end Call

structure AgreesAt (content : π → Memory) (m : Memory) (a : Nat) (h : MemoryHierarchy π) : Prop where
  newestEq : newest content h a = m a
  memoryEq : content h.port a = m a

namespace AgreesAt

theorem moves (hag : h.AgreesAt content m a) (hs : h.Sound ok) (hm : Moves content ok t h h') :
    h'.AgreesAt content m a where
  newestEq := by
    rw [hm.newest_eq hs]
    split
    · exact hag.memoryEq
    · exact hag.newestEq
  memoryEq := by
    rw [hm.memory, saved_apply hs hm.copies]
    split
    · exact hag.newestEq
    · exact hag.memoryEq

theorem applies {x : Option (List Byte)} (hag : h.AgreesAt content m a) (hc : ¬c.WritesAt a)
    (ha : Applies content ok c x h h') : h'.AgreesAt content m a where
  newestEq := by
    rw [ha.newestEq, Call.apply_of_not_writesAt hc, hag.newestEq]
  memoryEq := by
    rcases ha.port with hp | hp
    · rw [hp, hag.memoryEq]
    · rw [hp, Call.apply_of_not_writesAt hc, hag.memoryEq]

theorem withPort (hag : h.AgreesAt content m a) {p : π} (hp : content p a = m a) :
    (h.withPort p).AgreesAt content m a where
  newestEq := by
    have hover : newest content (h.withPort p) a = h.newestOver (content p) a := rfl
    rw [hover]
    cases hl : h.copy (a / h.lineBytes) with
    | none => exact (newestOver_of_none hl _).trans hp
    | some l => exact (newestOver_of_some hl _ _).trans hag.newestEq
  memoryEq := hp

theorem run [BlockDevice π] (hag : h.AgreesAt content m a) (hd : FlatDevice content ok answers)
    (hs : h.Sound ok) (hc : ¬c.WritesAt a) (hrun : (c.run h).state? = some h') :
    h'.AgreesAt content m a := by
  obtain ⟨h₁, hm, hthen⟩ := run_moves hd hs hrun
  have hag₁ := hag.moves hs hm
  rcases hthen with rfl | ⟨x, ha⟩
  · exact hag₁
  · exact hag₁.applies hc ha

end AgreesAt

theorem agreesAt_of_written (hs : h.Sound ok) (hm : Moves content ok t h h')
    (hw : Covers h.lineBytes t.written a) : h'.AgreesAt content (newest content h) a where
  newestEq := by rw [hm.newest_eq hs, if_neg fun hlost => hlost.2 hw]
  memoryEq := by
    rw [hm.memory, saved_apply hs hm.copies, if_pos hw]
    rfl

def AgreesOn (content : π → Memory) (m : Memory) (lineBytes n : Nat) (h : MemoryHierarchy π) : Prop :=
  ∀ a, a / lineBytes = n → h.AgreesAt content m a

def HoldsDirty (h : MemoryHierarchy π) (addr : Word) (l : CacheLine) : Prop :=
  (h.dcache.lookup addr = some l ∨ h.bcache.lookup addr = some l) ∧ l.dirty = true

theorem holdsDirty_iff (hs : h.Sound ok) :
    h.HoldsDirty addr l ↔ h.copy (h.number addr) = some l ∧ l.dirty = true := by
  rw [HoldsDirty, Cache.lookup_eq_line hs.dcache, Cache.lookup_eq_line hs.bcache, number_bcache hs]
  refine and_congr_left fun _ => ⟨?_, Sound.copy_cases⟩
  rintro (hd | hb)
  · exact Sound.copy_of_dcache hd
  · exact hs.copy_of_bcache hb

theorem held_answered (hb : h.Backed ok answers size) (hl : h.copy n = some l) :
    answers (BitVec.ofNat 64 (n * size)) size :=
  hb.lineBytes ▸ hb.answered n l hl

variable [BlockDevice π]

theorem taken_hands_over (hs : h.Sound ok) (hans : h.Answered answers) (hl : h.copy n = some l)
    (hdirty : l.dirty = true) {α : Type} {x : MemoryStep π α} {vs : List Victim}
    (hv : l.victim h.lineBytes n ∈ vs)
    (hx : (x h).Ends (fun _ h' => Settles content ok (h.takenTraffic vs) h h')
      (fun _ h' => Moves content ok (h.takenTraffic vs) h h' ∧ ¬h.Answered answers) False) :
    ((x >>= fun _ => pure none : MemoryStep π (Option (List Byte))) h).Ends
      (fun _ h' => h'.AgreesOn content (newest content h) h.lineBytes n) (fun _ _ => False) False := by
  refine Step.ends_bind (hx.sure (fun _ _ he => he.2 hans) not_false) ?_
  intro _ h' hm a ha
  refine agreesAt_of_written hs hm.toMoves ⟨_, hm.dirtyWritten _ hv hdirty, ?_⟩
  rw [hs.number_victim hl, ha]

theorem handsOver_ends (hd : FlatDevice content ok answers) (hs : h.Sound ok)
    (hans : h.Answered answers) (hl : h.copy n = some l) (hdirty : l.dirty = true)
    (hgive : give.HandsOver h.lineBytes n) :
    (give.run h).Ends (fun _ h' => h'.AgreesOn content (newest content h) h.lineBytes n)
      (fun _ _ => False) False := by
  cases give with
  | read addr length => exact hgive.elim
  | write addr data => exact hgive.elim
  | fetch addr => exact hgive.elim
  | flush =>
    refine taken_hands_over hs hans hl hdirty ((mem_allVictims hs).mpr ⟨n, l, hl, rfl⟩) ?_
    exact (flush_ends hd hs).mono (fun _ _ hq => hq.1) (fun _ _ he => he) id
  | evict addr =>
    obtain rfl : h.number addr = n := hgive
    exact taken_hands_over hs hans hl hdirty (victim_mem_victimsAt hs hl) (evict_ends hd hs addr)
  | probeInvalidate addr =>
    obtain rfl : h.number addr = n := hgive
    exact taken_hands_over hs hans hl hdirty (victim_mem_victimsAt hs hl)
      (probeInvalidate_ends hd hs addr)
  | probeShare addr =>
    obtain rfl : h.number addr = n := hgive
    refine Step.ends_bind
      ((probeShare_ends hd hs addr).sure (fun _ _ he => he.2 hans) not_false) ?_
    rintro _ h' ⟨hm, hall⟩ a ha
    refine agreesAt_of_written hs hm.toMoves ⟨l.victim h.lineBytes (h.number addr), ?_, ?_⟩
    · rw [hall, sharedVictims_eq hs, hl, Option.filter_some, if_pos hdirty]
      exact List.mem_filter.mpr ⟨List.mem_singleton_self _, hdirty⟩
    · rw [hs.number_victim hl, ha]

theorem probeInvalidate_ends_agreeing (hd : FlatDevice content ok answers) (hs : h.Sound ok)
    (hans : h.Answered answers) (addr : Word)
    (hclean : ∀ l, h.copy (h.number addr) = some l → l.dirty = false)
    (hm : ∀ a, a / h.lineBytes = h.number addr → content h.port a = m a) :
    ((Call.probeInvalidate addr).run h).Ends
      (fun _ h' => h'.AgreesOn content m h.lineBytes (h.number addr)) (fun _ _ => False) False := by
  -- what is clean is dropped and not written, so the device keeps what the holder gave it
  have hnone : accepted (h.victimsAt addr) h.port = [] := by
    refine accepted_of_clean ?_ _
    rw [victimsAt_eq hs]
    intro v hv
    obtain ⟨l, hl, rfl⟩ := Option.map_eq_some_iff.mp (Option.mem_toList.mp hv)
    exact hclean l hl
  have hends := probeInvalidate_ends hd hs addr
  rw [takenTraffic, hnone] at hends
  refine Step.ends_bind (hends.sure (fun _ _ he => he.2 hans) not_false) ?_
  intro _ h' hset a ha
  refine ⟨?_, ?_⟩
  · rw [hset.toMoves.newest_eq hs]
    split
    · exact hm a ha
    · rename_i hkept
      cases hl : h.copy (h.number addr) with
      | none => exact (newestOver_of_none (ha ▸ hl) _).trans (hm a ha)
      | some l =>
        refine absurd ⟨⟨_, victim_mem_victimsAt hs hl, ?_⟩, ?_⟩ hkept
        · rw [hs.number_victim hl, ha]
        · rintro ⟨v, hv, -⟩
          cases hv
  · rw [hset.memory]
    exact hm a ha

theorem AgreesOn.read (hag : h.AgreesOn content m h.lineBytes (h.number start))
    (hx : ExactDevice content ok answers) (hs : h.Sound ok) (hans : h.Answered answers)
    (hline : answers (Address.lineBase start h.lineBytes) h.lineBytes) {length : Nat}
    (hfit : start.toNat % h.lineBytes + length ≤ h.lineBytes) :
    ∃ h', (Call.read start length).run h = .done (some (m.bytes start.toNat length)) h' := by
  have hdm := Nat.div_add_mod' start.toNat h.lineBytes
  have hpart : answers start length := by
    refine hx.part hline ?_ ?_
    · rw [hs.lineSize.toNat_lineBase]
      exact Nat.div_mul_le_self _ _
    · rw [hs.lineSize.toNat_lineBase]
      omega
  have hends := (run_ends hx.toFlatDevice hs (.read start length)).sure
    (fun _ _ he => he.2 ⟨⟨hline, hpart⟩, hans⟩) fun hb => hb hfit
  obtain ⟨x, h', hrun, h₁, hm, ha⟩ := hends.exists_done
  refine ⟨h', ?_⟩
  rw [hrun, ha.answerEq, Call.answer]
  congr 2
  refine Memory.bytes_congr fun a hle hlt => ?_
  have hon : a / h.lineBytes = h.number start := by
    rw [number, Nat.div_eq_iff hs.lineSize.pos]
    omega
  exact ((hag a hon).moves hs hm.toMoves).newestEq

end MemoryHierarchy

namespace Pair

open MemoryHierarchy

variable {π : Type} [BlockDevice π] {s s' s₀ : Pair π} {a : Agent} {c give : Call}
  {content : π → Memory} {ok : π → Prop} {answers : Word → Nat → Prop} {m : Memory} {n size : Nat}
  {l : CacheLine} {addr probed : Word}

def AgreesOn (content : π → Memory) (m : Memory) (lineBytes n : Nat) (s : Pair π) : Prop :=
  ∀ a, (s.side a).AgreesOn content m lineBytes n

theorem AgreesOn.run (hag : s.AgreesOn content m size n) (hx : ExactDevice content ok answers)
    (hb : s.Backed ok answers size) (hc : ¬c.Writes size n)
    (hrun : (Pair.run a c s).state? = some s') : s'.AgreesOn content m size n := by
  obtain ⟨h, hcall, rfl⟩ := run_state hrun
  have hself : h.AgreesOn content m size n := fun b hon =>
    (hag a b hon).run hx.toFlatDevice (hb a).sound (fun hw => hc ⟨b, hon, hw⟩) hcall
  exact forall_put hself fun b hon => (hag a.other b hon).withPort (hself b hon).memoryEq

theorem AgreesOn.steps (hag : s.AgreesOn content m size n) (hx : ExactDevice content ok answers)
    (hb : s.Backed ok answers size) (hsteps : Steps (fun c => ¬c.Writes size n) s s') :
    s'.AgreesOn content m size n := by
  induction hsteps with
  | refl => exact hag
  | call a c hbefore hc hrun ih => exact ih.run hx (hb.steps hx hbefore) hc hrun

theorem hand_over (hx : ExactDevice content ok answers) (hb : s.Backed ok answers size)
    (hl : (s.side a).copy n = some l) (hdirty : l.dirty = true)
    (hclean : ∀ k, (s.side a.other).copy n = some k → k.dirty = false)
    (hgive : give.HandsOver size n) (hprobed : probed.toNat / size = n) :
    ∃ x s₁ y s₂, run a give s = .done x s₁ ∧
      run a.other (.probeInvalidate probed) s₁ = .done y s₂ ∧
      s₂.AgreesOn content (newest content (s.side a)) size n := by
  have hd := hx.toFlatDevice
  obtain rfl := (hb a).lineBytes
  obtain ⟨x, h₁, hgiven, hag₁⟩ :=
    (handsOver_ends hd (hb a).sound (hb a).answered hl hdirty hgive).exists_done
  have hrun₁ := run_done hgiven
  have hb₁ := hb.run hx (by rw [hrun₁]; rfl)
  have hother := other_put s a h₁
  have hline := (hb₁ a.other).lineBytes
  have hnumber : ((s.put a h₁).side a.other).number probed = n := by
    rw [number, hline, hprobed]
  obtain ⟨y, h₂, hdropped, hag₂⟩ :=
    (probeInvalidate_ends_agreeing (m := newest content (s.side a)) hd (hb₁ a.other).sound
      (hb₁ a.other).answered probed
      (by rw [hnumber, hother]; exact hclean)
      (by rw [hnumber, hline, hother]; exact fun b hon => (hag₁ b hon).memoryEq)).exists_done
  rw [hnumber, hline] at hag₂
  -- the holder is on the other side of the one that dropped the line
  refine ⟨x, _, y, _, hrun₁, run_done hdropped, forall_put hag₂ fun b hon => ?_⟩
  rw [Agent.other_other, side_put]
  exact (hag₁ b hon).withPort (hag₂ b hon).memoryEq

theorem read_agreed (hx : ExactDevice content ok answers) (hb : s.Backed ok answers size)
    (hag : s.AgreesOn content m size n) (reader : Agent) {start : Word} {length : Nat}
    (hon : start.toNat / size = n) (hfit : start.toNat % size + length ≤ size)
    (hline : answers (BitVec.ofNat 64 (n * size)) size) :
    ∃ s', run reader (.read start length) s = .done (some (m.bytes start.toNat length)) s' := by
  obtain rfl := (hb reader).lineBytes
  obtain rfl : (s.side reader).number start = n := hon
  rw [ofNat_number (hb reader).sound] at hline
  obtain ⟨h, hread⟩ := (hag reader).read hx (hb reader).sound (hb reader).answered hline hfit
  exact ⟨_, run_done hread⟩

theorem handed_over_line_reads {config : Agent → Config} {p : π}
    (hu : ∀ a, (config a).Uniform size) (hc : ∀ a, ofConfig (config a) p = .ok (s₀.side a))
    (hx : ExactDevice content ok answers) (hp : ok p) (hreached : Steps (fun _ => True) s₀ s)
    (hl : (s.side a).HoldsDirty addr l) (hother : ∀ k, ¬(s.side a.other).HoldsDirty addr k)
    (hgive : give.HandsOver size (addr.toNat / size))
    (hprobed : probed.toNat / size = addr.toNat / size) :
    ∃ x s₁ y s₂, run a give s = .done x s₁ ∧
      run a.other (.probeInvalidate probed) s₁ = .done y s₂ ∧
      ∀ s₃, Steps (fun c => ¬c.Writes size (addr.toNat / size)) s₂ s₃ →
        ∀ reader start length, start.toNat / size = addr.toNat / size →
          start.toNat % size + length ≤ size →
          ∃ s₄, run reader (.read start length) s₃ =
            .done (some (Block.slice l.data (start.toNat % size) length)) s₄ := by
  have hb₀ : s₀.Backed ok answers size := fun a => ofConfig_backed (hu a) (hc a) hp
  have hb := hb₀.steps hx hreached
  have hnumber (a : Agent) : (s.side a).number addr = addr.toNat / size := by
    rw [number, (hb a).lineBytes]
  obtain ⟨hl, hdirty⟩ := (holdsDirty_iff (hb a).sound).mp hl
  have hclean (k : CacheLine) (hk : (s.side a.other).copy (addr.toNat / size) = some k) :
      k.dirty = false := by
    rw [← Bool.not_eq_true]
    rw [← hnumber a.other] at hk
    exact fun hkd => hother k ((holdsDirty_iff (hb a.other).sound).mpr ⟨hk, hkd⟩)
  rw [hnumber] at hl
  obtain ⟨x, s₁, y, s₂, hrun₁, hrun₂, hag⟩ := hand_over hx hb hl hdirty hclean hgive hprobed
  refine ⟨x, s₁, y, s₂, hrun₁, hrun₂, fun s₃ hsteps reader start length hon hfit => ?_⟩
  have hb₁ := hb.run hx (by rw [hrun₁]; rfl)
  have hb₂ := hb₁.run hx (by rw [hrun₂]; rfl)
  have hb₃ := hb₂.steps hx hsteps
  obtain ⟨s₄, hread⟩ := read_agreed hx hb₃ (hag.steps hx hb₂ hsteps) reader hon hfit
    (held_answered (hb a) hl)
  refine ⟨s₄, hread.trans ?_⟩
  obtain rfl := (hb a).lineBytes
  rw [← hon] at hl
  rw [slice_newest (hb a).sound hl (Nat.not_lt.mpr hfit) (content (s.side a).port)]
  rfl

def twins (h : MemoryHierarchy π) : Pair π := ⟨fun _ => h, fun _ _ => rfl⟩

theorem sample_handed_over_line_reads :
    ∃ (h : MemoryHierarchy MemoryPort) (a b : Option (List Byte)) (s s' : Pair MemoryPort),
      ofConfig sampleConfig MemoryPort.sample = .ok h ∧
      run .second (.read 0 2) (twins h) = .done a s ∧ run .first (.write 0 [1, 2]) s = .done b s' ∧
      ∃ x s₁ y s₂ s₃, run .first (.evict 0) s' = .done x s₁ ∧
        run .second (.probeInvalidate 3) s₁ = .done y s₂ ∧
        run .second (.read 0 2) s₂ = .done (some [1, 2]) s₃ := by
  obtain ⟨h, a, b, s, s', l, k, hc, hread, hwrite, hl, hdirty, hbytes, hk, hclean, hnone⟩ :
      ∃ (h : MemoryHierarchy MemoryPort) (a b : Option (List Byte)) (s s' : Pair MemoryPort)
        (l k : CacheLine), ofConfig sampleConfig MemoryPort.sample = .ok h ∧
        run .second (.read 0 2) (twins h) = .done a s ∧
        run .first (.write 0 [1, 2]) s = .done b s' ∧
        (s'.side .first).dcache.lookup 0 = some l ∧ l.dirty = true ∧
        Block.slice l.data 0 2 = [1, 2] ∧ (s'.side .second).dcache.lookup 0 = some k ∧
        k.dirty = false ∧ (s'.side .second).bcache.lookup 0 = none :=
    ⟨_, _, _, _, _, _, _, rfl, rfl, rfl, rfl, rfl, rfl, rfl, rfl, rfl⟩
  have hother (j : CacheLine) : ¬(s'.side .second).HoldsDirty 0 j := by
    rintro ⟨hj | hj, hjd⟩
    · rw [hk, Option.some_inj] at hj
      rw [hj, hjd] at hclean
      cases hclean
    · rw [hnone] at hj
      cases hj
  have hreached : Steps (fun _ => True) (twins h) s' :=
    .call .first (.write 0 [1, 2]) (.one trivial hread) trivial (by rw [hwrite]; rfl)
  have hu : sampleConfig.Uniform 8 := ⟨rfl, rfl, rfl⟩
  have hstart (a : Agent) : ofConfig sampleConfig MemoryPort.sample = .ok ((twins h).side a) := hc
  have hgive : (Call.evict 0).HandsOver 8 ((0 : Word).toNat / 8) := rfl
  have hprobed : (3 : Word).toNat / 8 = (0 : Word).toNat / 8 := rfl
  obtain ⟨x, s₁, y, s₂, hevict, hprobe, hreads⟩ :=
    handed_over_line_reads (fun _ => hu) hstart (MemoryPort.exact_of_open 0 8192)
      MemoryPort.open_sample hreached ⟨.inl hl, hdirty⟩ hother hgive hprobed
  obtain ⟨s₃, hthen⟩ := hreads s₂ .refl .second 0 2 rfl (by decide)
  exact ⟨h, a, b, s, s', hc, hread, hwrite, x, s₁, y, s₂, s₃, hevict, hprobe,
    hthen.trans (by rw [← hbytes]; rfl)⟩

end Pair

end EV6
