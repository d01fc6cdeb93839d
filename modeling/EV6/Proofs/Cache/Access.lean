import EV6.Proofs.Cache.Loading

namespace EV6

namespace MemoryHierarchy

open Outcome

variable {π : Type} {h h' : MemoryHierarchy π} {content : π → Memory} {ok : π → Prop}
  {answers : Word → Nat → Prop} {n : Nat} {l : CacheLine} {addr base : Word} {data : List Byte}

theorem Moves.answered {t : Traffic} (hm : Moves content ok t h h') (ha : h.Answered answers)
    (ht : ∀ n ∈ t.entering, answers (BitVec.ofNat 64 (n * h.lineBytes)) h.lineBytes) :
    h'.Answered answers := by
  intro n l hl
  rw [hm.alike.lineBytes]
  rcases hm.entering n (by rw [hl]; exact Option.some_ne_none l) with hn | hn
  · obtain ⟨k, hk⟩ := Option.ne_none_iff_exists'.mp hn
    exact ha n k hk
  · exact ht n hn

theorem number_lineBase (hs : h.Sound ok) (addr : Word) :
    h.number (Address.lineBase addr h.lineBytes) = h.number addr :=
  hs.lineSize.lineBase_div addr

theorem ofNat_number (hs : h.Sound ok) (addr : Word) :
    BitVec.ofNat 64 (h.number addr * h.lineBytes) = Address.lineBase addr h.lineBytes := by
  apply BitVec.eq_of_toNat_eq
  rw [hs.lineSize.toNat_lineBase, BitVec.toNat_ofNat]
  exact Nat.mod_eq_of_lt (h.dcache.number_mul_lt addr)

variable [BlockDevice π]

theorem loadLine_hit (hs : h.Sound ok) (hl : h.bcache.line (h.number base) = some l) :
    loadLine base h =
      .done (some (l.victim h.lineBytes (h.number base)), l.data) (h.behind base) := by
  have hv : (h.bcache.invalidate base).1 = some (l.victim h.lineBytes (h.number base)) := by
    rw [Cache.invalidate_fst hs.bcache, number_bcache hs, hl, hs.bcacheLine, Option.map_some]
  have hinv : onCache .bcache (modifyGet (·.invalidate base)) h =
      .done (h.bcache.invalidate base).1 (h.behind base) := rfl
  rw [hv] at hinv
  rw [loadLine, Step.bind_done (Step.get_apply h), Step.bind_done hinv]
  rfl

theorem loadLine_miss (hs : h.Sound ok) (hl : h.bcache.line (h.number base) = none) :
    loadLine base h =
      (do return (none, ← onPort (BlockDevice.readBlock base h.lineBytes)) :
        MemoryStep π (Option Victim × List Byte)) (h.behind base) := by
  have hv : (h.bcache.invalidate base).1 = none := by
    rw [Cache.invalidate_fst hs.bcache, number_bcache hs, hl, Option.map_none]
  have hinv : onCache .bcache (modifyGet (·.invalidate base)) h =
      .done (h.bcache.invalidate base).1 (h.behind base) := rfl
  rw [hv] at hinv
  rw [loadLine, Step.bind_done (Step.get_apply h), Step.bind_done hinv]
  rfl

def lineTraffic (h : MemoryHierarchy π) (addr : Word) : Traffic :=
  let base := Address.lineBase addr h.lineBytes
  if h.dcache.contains addr then .silent
  else if h.bcache.contains base then h.loadTraffic base h.port
  else
    match BlockDevice.readBlock base h.lineBytes h.port with
    | .done _ p => h.loadTraffic base p
    | _ => .silent

theorem installLine_ends (hd : FlatDevice content ok answers) (hs : h.Sound ok)
    (he : h.dcache.enabled = true) {p : π} (hok : ok p) (hp : content p = content h.port)
    (hn : h.dcache.line (h.number base) = none) {dirty : Bool}
    (hb : loadedBody content h (h.number base) = (dirty, data)) :
    (installLine base data dirty ((h.behind base).withPort p)).Ends
      (fun _ h' => Settles content ok (h.loadTraffic base p) h h' ∧
        ∃ l, h'.dcache.line (h.number base) = some l)
      (fun _ h' => Moves content ok (h.loadTraffic base p) h h' ∧
        ¬h.Answered answers) False := by
  have hs₁ := (behind_sound hs base).withPort hok
  have hlen : data.length = h.lineBytes := by
    have hblock := hs.length_blockOver (content h.port) (h.number base)
    rw [blockOver_eq_body] at hblock
    rw [loadedBody] at hb
    cases hbody : h.body (h.number base) with
    | none =>
      rw [hbody, Option.getD_none, Prod.mk.injEq] at hb
      rw [← hb.2, Memory.length_bytes]
    | some b =>
      rw [hbody, Option.getD_some] at hb
      rw [hbody, hb] at hblock
      exact hblock
  have hcopy : ((h.behind base).withPort p).copy (h.number base) = none :=
    (behind_copy hs hn _).trans (if_pos rfl)
  rw [installLine_apply hs₁ he hlen]
  have hloads : Loads content ok h base p (((h.behind base).withPort p).placed base data dirty) := by
    refine ⟨hn, hp, ?_⟩
    rw [hb]
    exact placed_spec hs₁ he hlen hcopy
  refine (writeBackDirty_ends hd _ hloads.placed.sound.port).mono ?_ ?_ id
  · rintro _ h' ⟨q, rfl, hqok, hq, hall⟩
    exact ⟨hloads.settles hs hqok hq hall, hloads.placed.line⟩
  · rintro _ h' ⟨q, rfl, hqok, hq, href⟩
    refine ⟨hloads.moves hs hqok hq, fun ha => ha.not_refused hs ?_ href⟩
    intro v hv
    obtain ⟨m, d, _, hd, rfl⟩ := hloads.copies hs v hv
    exact ⟨m, d, hd, rfl⟩

theorem loadLine_ends (hd : FlatDevice content ok answers) (hs : h.Sound ok)
    (hbase : Address.lineBase addr h.lineBytes = base)
    (hmiss : h.dcache.line (h.number base) = none) :
    (loadLine base h).Ends
      (fun r h' => ∃ p, h' = (h.behind base).withPort p ∧ ok p ∧ content p = content h.port ∧
        loadedBody content h (h.number base) = (r.1.any (·.dirty), r.2) ∧
        h.lineTraffic addr = h.loadTraffic base p)
      (fun _ h' => Moves content ok (h.lineTraffic addr) h h' ∧ ¬answers base h.lineBytes) False := by
  have hnum : h.number base = h.number addr := hbase ▸ number_lineBase hs addr
  have hcontains : h.dcache.contains addr = false := by
    rw [hnum] at hmiss
    have hmiss : h.dcache.line (h.dcache.number addr) = none := hmiss
    rw [Cache.contains_eq_isSome hs.dcache, hmiss, Option.isSome_none]
  rw [lineTraffic, hbase, hcontains, Cache.contains_eq_isSome hs.bcache, number_bcache hs]
  simp only [Bool.false_eq_true, if_false]
  cases hbl : h.bcache.line (h.number base) with
  | some l =>
    have hbody : h.body (h.number base) = some (l.dirty, l.data) :=
      body_of_copy (hs.copy_of_bcache hbl)
    rw [loadLine_hit hs hbl]
    refine ⟨h.port, rfl, hs.port, rfl, ?_, rfl⟩
    rw [loadedBody, hbody, Option.getD_some]
    rfl
  | none =>
    have hcopy : h.copy (h.number base) = none := by rw [copy, hmiss, hbl, Option.or_none]
    have hr := hd.read_ends hs.port base h.lineBytes
    simp only [Option.isSome_none, Bool.false_eq_true, if_false]
    rw [loadLine_miss hs hbl, Step.bind_apply]
    cases ho : BlockDevice.readBlock base h.lineBytes h.port with
    | done data p =>
      rw [ho] at hr
      have haddr : base.toNat = h.number base * h.lineBytes := by
        rw [hnum, ← hbase, ← ofNat_number hs, BitVec.toNat_ofNat]
        exact Nat.mod_eq_of_lt (h.dcache.number_mul_lt addr)
      have hport : onPort (BlockDevice.readBlock base h.lineBytes) (h.behind base) = _ :=
        onPort_done ho
      rw [hport]
      refine ⟨p, rfl, hr.1, hr.2.2, ?_, rfl⟩
      rw [loadedBody, body_eq_none_iff.mpr hcopy, Option.getD_none, hr.2.1, haddr]
      rfl
    | failed e p =>
      rw [ho] at hr
      have hport : onPort (BlockDevice.readBlock base h.lineBytes) (h.behind base) = _ :=
        onPort_failed ho
      rw [hport]
      refine ⟨(Moves.refl hs).congr ((behind_sound hs base).withPort hr.1)
        ((behind_becomes hs base).alike.withPort p) ?_ hr.2.1, hr.2.2⟩
      intro n
      refine (behind_copy hs hmiss n).trans ?_
      by_cases hn : n = h.number base
      · rw [if_pos hn, hn, hcopy]
      · rw [if_neg hn]
    | broken b =>
      rw [ho] at hr
      exact hr.elim

theorem ensureLine_ends (hd : FlatDevice content ok answers) (hs : h.Sound ok)
    (he : h.dcache.enabled = true) (addr : Word) :
    (ensureLine addr h).Ends
      (fun _ h' => Settles content ok (h.lineTraffic addr) h h' ∧
        ∃ l, h'.dcache.line (h.number addr) = some l)
      (fun _ h' => Moves content ok (h.lineTraffic addr) h h' ∧
        ¬(answers (Address.lineBase addr h.lineBytes) h.lineBytes ∧ h.Answered answers)) False := by
  rw [ensureLine, Step.bind_done (Step.get_apply h), Cache.contains_eq_isSome hs.dcache]
  cases hdl : h.dcache.line (h.dcache.number addr) with
  | some l =>
    rw [lineTraffic, Cache.contains_eq_isSome hs.dcache, hdl]
    exact ⟨.refl hs, l, hdl⟩
  | none =>
    obtain ⟨base, hbase⟩ : ∃ base, Address.lineBase addr h.lineBytes = base := ⟨_, rfl⟩
    have hnum : h.number base = h.number addr := hbase ▸ number_lineBase hs addr
    have hmiss : h.dcache.line (h.number base) = none := hnum ▸ hdl
    have hdbase : Address.lineBase addr h.dcache.lineBytes = base := hbase
    simp only [Option.isSome_none, Bool.false_eq_true, if_false, hbase, hdbase]
    refine Step.ends_bind ((loadLine_ends hd hs hbase hmiss).mono (fun _ _ hq => hq) ?_ id) ?_
    · rintro _ h' ⟨hm, hans⟩
      exact ⟨hm, fun ha => hans ha.1⟩
    · rintro ⟨moved, data⟩ _ ⟨p, rfl, hok, hp, hbody, htraffic⟩
      rw [htraffic, ← hnum]
      refine Step.ends_bind ((installLine_ends hd hs he hok hp hmiss hbody).mono
        (fun _ _ hq => hq) ?_ id) ?_
      · rintro _ h' ⟨hm, href⟩
        exact ⟨hm, fun ha => href ha.2⟩
      · intro writebacks h' hq
        cases moved with
        | none => exact hq
        | some line => exact hq

def accessTraffic (h : MemoryHierarchy π) (addr : Word) : Traffic :=
  if h.dcache.enabled then h.lineTraffic addr else .silent

omit [BlockDevice π] in
def Served (answers : Word → Nat → Prop) (h : MemoryHierarchy π) (addr : Word) (length : Nat) :
    Prop :=
  answers (Address.lineBase addr h.lineBytes) h.lineBytes ∧ answers addr length ∧ h.Answered answers

def Crosses (h : MemoryHierarchy π) (addr : Word) (length : Nat) : Prop :=
  h.lineBytes < addr.toNat % h.lineBytes + length

omit [BlockDevice π] in
theorem not_crosses_of_aligned (hs : h.Sound ok) {length : Nat} (hd : length ∣ h.lineBytes)
    (ha : addr.toNat % length = 0) : ¬h.Crosses addr length :=
  Nat.not_lt.mpr (hs.lineSize.within hd ha)

omit [BlockDevice π] in
theorem slice_blockOver (hs : h.Sound ok) {length : Nat} (hx : ¬h.Crosses addr length) (m : Memory) :
    Block.slice (h.blockOver m (h.number addr)) (addr.toNat % h.lineBytes) length =
      (h.newestOver m).bytes addr.toNat length := by
  rw [hs.blockOver_eq, Memory.slice_bytes (Nat.le_of_not_lt hx), number, Nat.div_add_mod']

omit [BlockDevice π] in
theorem slice_newest (hs : h.Sound ok) (hl : h.copy (h.number addr) = some l) {length : Nat}
    (hx : ¬h.Crosses addr length) (m : Memory) :
    Block.slice l.data (addr.toNat % h.lineBytes) length =
      (h.newestOver m).bytes addr.toNat length := by
  rw [← slice_blockOver hs hx, blockOver, hl]

omit [BlockDevice π] in
theorem newest_of_disabled (hs : h.Sound ok) (hd : ¬h.dcache.enabled = true) (n : Nat) :
    h.copy n = none := by
  have hd : h.dcache.enabled = false := by simpa using hd
  rw [copy, hs.dcache.disabled hd, hs.uncached hd, Option.or_none]

omit [BlockDevice π] in
theorem newestOver_of_disabled (hs : h.Sound ok) (hd : ¬h.dcache.enabled = true) (m : Memory) :
    h.newestOver m = m := by
  funext a
  exact newestOver_of_none (newest_of_disabled hs hd _) m

omit [BlockDevice π] in
theorem Sound.withDcache (hs : h.Sound ok) {d : Cache} {f : Nat → Option CacheLine}
    (hd : h.dcache.Becomes d f) (hf : ∀ n, f n = none ↔ h.dcache.line n = none) :
    ({ h with dcache := d } : MemoryHierarchy π).Sound ok := by
  have hb : h.Becomes { h with dcache := d } f h.bcache.line :=
    ⟨⟨_, hs.icache.becomes⟩, hd, hs.bcache.becomes⟩
  refine hb.sound hs ?_ hs.uncached hs.port
  intro n
  rw [hf]
  exact hs.exclusive n

omit [BlockDevice π] in
theorem Alike.number (ha : h.Alike h') (addr : Word) : h'.number addr = h.number addr := by
  rw [MemoryHierarchy.number, ha.lineBytes, MemoryHierarchy.number]

omit [BlockDevice π] in
theorem Alike.crosses (ha : h.Alike h') (addr : Word) (length : Nat) :
    h'.Crosses addr length = h.Crosses addr length := by
  rw [Crosses, ha.lineBytes, Crosses]

omit [BlockDevice π] in
theorem readDcache_ends (hs : h.Sound ok) (hl : h.dcache.line (h.number addr) = some l)
    (length : Nat) :
    (onCache .dcache (Cache.read addr length) h).Ends
      (fun data h' =>
        data = some (Block.slice l.data (addr.toNat % h.lineBytes) length) ∧
        ¬h.Crosses addr length ∧
        ∃ d, h' = { h with dcache := d } ∧ h.dcache.Becomes d h.dcache.line)
      (fun _ _ => False) (h.Crosses addr length) := by
  refine (onCache_ends .dcache (Cache.read_ends hs.dcache addr length)).mono ?_
    (fun _ _ ⟨_, he, _⟩ => he) id
  rintro data h' ⟨d, ⟨rfl, hb, hx⟩, rfl⟩
  have hl' : h.dcache.line (h.dcache.number addr) = some l := hl
  refine ⟨by rw [hl']; rfl, Nat.not_lt.mpr (hx (by rw [hl']; exact Option.some_ne_none l)), d, rfl,
    hb⟩

theorem readUncached_ends (hd : FlatDevice content ok answers) (hs : h.Sound ok) (addr : Word)
    (length : Nat) :
    (readUncached addr length h).Ends
      (fun data h' => ∃ p, h' = h.withPort p ∧ ok p ∧ content p = content h.port ∧
        data = (content h.port).bytes addr.toNat length)
      (fun _ h' => ∃ p, h' = h.withPort p ∧ ok p ∧ content p = content h.port ∧
        ¬answers addr length)
      False := by
  have hr := hd.read_ends hs.port addr length
  refine Step.ends_bind ((onPort_ends hr).mono (fun _ _ hq => hq) ?_ id) ?_
  · rintro _ _ ⟨p, hp, rfl⟩
    exact ⟨p, rfl, hp⟩
  · rintro data _ ⟨p, ⟨hok, hdata, hp⟩, rfl⟩
    have hlen : ¬data.length ≠ length := by
      rw [hdata, Memory.length_bytes]
      exact fun hne => hne rfl
    simp only [if_neg hlen]
    exact ⟨p, rfl, hok, hp, hdata⟩

theorem read_ends (hd : FlatDevice content ok answers) (hs : h.Sound ok) (addr : Word) (length : Nat) :
    (read addr length h).Ends
      (fun r h' => Settles content ok (h.accessTraffic addr) h h' ∧
        r.1 = (newest content h').bytes addr.toNat length)
      (fun _ h' => Moves content ok (h.accessTraffic addr) h h' ∧ ¬h.Served answers addr length)
      (h.Crosses addr length) := by
  rw [read, Step.bind_done (Step.get_apply h), accessTraffic]
  by_cases he : h.dcache.enabled = true
  · simp only [if_pos he]
    refine Step.ends_bind ((ensureLine_ends hd hs he addr).mono (fun _ _ hq => hq) ?_ False.elim) ?_
    · rintro _ h' ⟨hm, href⟩
      exact ⟨hm, fun ha => href ⟨ha.1, ha.2.2⟩⟩
    · rintro access h₁ ⟨hm, l, hl⟩
      rw [← hm.alike.number] at hl
      rw [← hm.alike.crosses]
      refine Step.ends_bind (readDcache_ends hm.sound hl length).of_sure ?_
      rintro _ h' ⟨rfl, hx, d, rfl, hb⟩
      have hs' := hm.sound.withDcache hb fun _ => Iff.rfl
      have ha : h₁.Alike { h₁ with dcache := d } := ⟨hb.lineBytes, hb.enabled, rfl⟩
      have hcopy (n : Nat) : ({ h₁ with dcache := d } : MemoryHierarchy π).copy n = h₁.copy n := by
        rw [copy, hb.line, copy]
      refine ⟨hm.congr hs' ha hcopy rfl, ?_⟩
      rw [Option.getD_some, slice_newest hm.sound (Sound.copy_of_dcache hl) hx (content h₁.port),
        newest_congr ha hcopy rfl]
      rfl
  · simp only [if_neg he]
    have hr := readUncached_ends hd hs addr length
    refine Step.ends_bind (hr.mono (fun _ _ hq => hq) ?_ False.elim) ?_
    · rintro _ h' ⟨p, rfl, hok, hp, hans⟩
      exact ⟨(Moves.refl hs).congr (hs.withPort hok) ((Alike.refl h).withPort p) (fun _ => rfl) hp,
        fun ha => hans ha.2.1⟩
    · rintro data h' ⟨p, rfl, hok, hp, rfl⟩
      refine ⟨(Settles.refl hs).congr (hs.withPort hok) ((Alike.refl h).withPort p)
        (fun _ => rfl) hp, ?_⟩
      rw [newest, newestOver_of_disabled (hs.withPort hok) he]
      exact congrArg (fun m => m.bytes addr.toNat length) hp.symm

structure Writes (content : π → Memory) (ok : π → Prop) (addr : Word) (data : List Byte)
    (h h' : MemoryHierarchy π) : Prop where
  sound : h'.Sound ok
  alike : h.Alike h'
  newest : newest content h' = (newest content h).write addr.toNat data
  coherent : Coherent content h → Coherent content h'
  held : ∀ n, h'.copy n = none ↔ h.copy n = none
  port : content h'.port = content h.port ∨
    content h'.port = (content h.port).write addr.toNat data

omit [BlockDevice π] in
theorem newestOver_written (hs : h.Sound ok) (hl : h.copy (h.number addr) = some l)
    (hx : ¬h.Crosses addr data.length) (hline : h'.lineBytes = h.lineBytes)
    (hcopy : ∀ n, h'.copy n =
      if n = h.number addr then some (l.written (addr.toNat % h.lineBytes) data) else h.copy n)
    (m : Memory) : h'.newestOver m = (h.newestOver m).write addr.toNat data := by
  funext a
  have hfull := hs.full hl
  have hx := Nat.le_of_not_lt hx
  have hdm := Nat.div_add_mod' a h.lineBytes
  have hdmw := Nat.div_add_mod' addr.toNat h.lineBytes
  have hlt := Nat.mod_lt a hs.lineSize.pos
  rw [newestOver, hline, hcopy, Memory.write, newestOver]
  by_cases hn : a / h.lineBytes = h.number addr
  · rw [if_pos hn, hn, hl]
    rw [hn, number] at hdm
    simp only [CacheLine.written]
    rw [Block.getD_splice (by rw [hfull]; exact hx)]
    by_cases hle : addr.toNat ≤ a
    · have hsub : a % h.lineBytes - addr.toNat % h.lineBytes = a - addr.toNat := by omega
      rw [if_pos hle, if_pos (by omega), hsub]
    · rw [if_neg hle, if_neg (by omega)]
  · rw [if_neg hn]
    by_cases hle : addr.toNat ≤ a
    · have hfar : data.length ≤ a - addr.toNat := by
        have hlt' : h.number addr < a / h.lineBytes :=
          Nat.lt_of_le_of_ne (Nat.div_le_div_right hle) (Ne.symm hn)
        have := Nat.mul_le_mul_right h.lineBytes (Nat.succ_le_of_lt hlt')
        rw [Nat.succ_mul, number] at this
        omega
      rw [if_pos hle, List.getD_eq_getElem?_getD (l := data), List.getElem?_eq_none hfar, Option.getD_none]
    · rw [if_neg hle]

omit [BlockDevice π] in
theorem writes_of_becomes (content : π → Memory) (hs : h.Sound ok)
    (hl : h.dcache.line (h.number addr) = some l) (hx : ¬h.Crosses addr data.length) {d : Cache}
    (hb : h.dcache.Becomes d fun n => if n = h.number addr then
      some (l.written (addr.toNat % h.lineBytes) data) else h.dcache.line n) :
    Writes content ok addr data h { h with dcache := d } := by
  have ha : h.Alike { h with dcache := d } := ⟨hb.lineBytes, hb.enabled, rfl⟩
  have hheld := Sound.copy_of_dcache hl
  have hcopy (n : Nat) : ({ h with dcache := d } : MemoryHierarchy π).copy n =
      if n = h.number addr then some (l.written (addr.toNat % h.lineBytes) data)
      else h.copy n := by
    simp only [copy, hb.line]
    by_cases hn : n = h.number addr
    · rw [if_pos hn, if_pos hn, Option.some_or]
    · rw [if_neg hn, if_neg hn]
  refine ⟨hs.withDcache hb ?_, ha, newestOver_written hs hheld hx ha.lineBytes hcopy _, ?_, ?_,
    .inl rfl⟩
  · intro n
    by_cases hn : n = h.number addr
    · rw [if_pos hn, hn, hl]
      simp
    · rw [if_neg hn]
  · intro hc n k hk hd
    rw [hcopy] at hk
    by_cases hn : n = h.number addr
    · rw [if_pos hn] at hk
      cases hk
      cases hd
    · rw [if_neg hn] at hk
      rw [ha.lineBytes]
      exact hc n k hk hd
  · intro n
    rw [hcopy]
    by_cases hn : n = h.number addr
    · rw [if_pos hn, hn, hheld]
      simp
    · rw [if_neg hn]

omit [BlockDevice π] in
theorem writeDcache_ends (content : π → Memory) (hs : h.Sound ok)
    (hl : h.dcache.line (h.number addr) = some l) (data : List Byte) :
    (onCache .dcache (Cache.write addr data) h).Ends
      (fun _ h' => Writes content ok addr data h h') (fun _ _ => False)
      (h.Crosses addr data.length) := by
  have hline : h.dcache.line (h.dcache.number addr) = some l := hl
  refine (onCache_ends .dcache (Cache.write_ends hs.dcache addr data)).mono ?_
    (fun _ _ ⟨_, he, _⟩ => he) id
  rintro _ h' ⟨d, ⟨_, hb, hx⟩, rfl⟩
  rw [hline] at hb hx
  exact writes_of_becomes content hs hl (Nat.not_lt.mpr (hx (Option.some_ne_none l))) hb

theorem write_ends (hd : FlatDevice content ok answers) (hs : h.Sound ok) (addr : Word)
    (data : List Byte) :
    (write addr data h).Ends
      (fun _ h' => ∃ h₁, Settles content ok (h.accessTraffic addr) h h₁ ∧
        Writes content ok addr data h₁ h')
      (fun _ h' => Moves content ok (h.accessTraffic addr) h h' ∧ ¬h.Served answers addr data.length)
      (h.Crosses addr data.length) := by
  rw [write, Step.bind_done (Step.get_apply h), accessTraffic]
  by_cases he : h.dcache.enabled = true
  · simp only [if_pos he]
    refine Step.ends_bind ((ensureLine_ends hd hs he addr).mono (fun _ _ hq => hq) ?_ False.elim) ?_
    · rintro _ h' ⟨hm, href⟩
      exact ⟨hm, fun ha => href ⟨ha.1, ha.2.2⟩⟩
    · rintro access h₁ ⟨hm, l, hl⟩
      rw [← hm.alike.number] at hl
      rw [← hm.alike.crosses]
      refine Step.ends_bind (writeDcache_ends content hm.sound hl data).of_sure ?_
      intro _ h' hw
      exact ⟨h₁, hm, hw⟩
  · simp only [if_neg he]
    have hw := hd.write_ends hs.port addr data
    refine Step.ends_bind ((onPort_ends hw).mono (fun _ _ hq => hq) ?_ False.elim) ?_
    · rintro _ _ ⟨p, ⟨hok, hp, hans⟩, rfl⟩
      exact ⟨(Moves.refl hs).congr (hs.withPort hok) ((Alike.refl h).withPort p) (fun _ => rfl) hp,
        fun ha => hans ha.2.1⟩
    · rintro _ _ ⟨p, ⟨hok, hp⟩, rfl⟩
      refine ⟨h, .refl hs, hs.withPort hok, (Alike.refl h).withPort p, ?_, ?_, fun _ => Iff.rfl,
        .inr hp⟩
      · have hnew : newest content (h.withPort p) = content p :=
          newestOver_of_disabled (hs.withPort hok) he _
        have hold : newest content h = content h.port := newestOver_of_disabled hs he _
        rw [hold]
        exact hnew.trans hp
      · intro _ n k hk
        have hk : h.copy n = some k := hk
        rw [newest_of_disabled hs he] at hk
        cases hk

end MemoryHierarchy

end EV6
