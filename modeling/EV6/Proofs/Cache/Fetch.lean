import EV6.Proofs.Cache.Access

namespace EV6

namespace MemoryHierarchy

open Outcome

variable {π : Type} {h h' : MemoryHierarchy π} {content : π → Memory} {ok : π → Prop}
  {answers : Word → Nat → Prop} {data : List Byte} {addr : Word}

structure Quiet (content : π → Memory) (ok : π → Prop) (h h' : MemoryHierarchy π) : Prop where
  ok : ok h'.port
  icache : ∃ f, h.icache.Becomes h'.icache f
  dcache : h'.dcache = h.dcache
  bcache : h'.bcache = h.bcache
  port : content h'.port = content h.port

namespace Quiet

theorem trans {h'' : MemoryHierarchy π} (hq : Quiet content ok h h') (hq' : Quiet content ok h' h'') :
    Quiet content ok h h'' := by
  obtain ⟨f, hf⟩ := hq.icache
  obtain ⟨g, hg⟩ := hq'.icache
  exact ⟨hq'.ok, ⟨g, hf.trans hg⟩, hq'.dcache.trans hq.dcache, hq'.bcache.trans hq.bcache,
    hq'.port.trans hq.port⟩

theorem withPort (hs : h.Sound ok) {p : π} (hok : ok p) (hp : content p = content h.port) :
    Quiet content ok h (h.withPort p) :=
  ⟨hok, ⟨_, hs.icache.becomes⟩, rfl, rfl, hp⟩

theorem alike (hq : Quiet content ok h h') : h.Alike h' := by
  refine ⟨?_, ?_, ?_⟩
  · rw [lineBytes, hq.dcache, lineBytes]
  · rw [hq.dcache]
  · rw [hq.bcache]

theorem sound (hq : Quiet content ok h h') (hs : h.Sound ok) : h'.Sound ok := by
  obtain ⟨f, hf⟩ := hq.icache
  have hb : h.Becomes h' h.dcache.line h.bcache.line := by
    refine ⟨⟨f, hf⟩, ?_, ?_⟩
    · rw [hq.dcache]
      exact hs.dcache.becomes
    · rw [hq.bcache]
      exact hs.bcache.becomes
  exact hb.sound hs hs.exclusive hs.uncached hq.ok

theorem copy (hq : Quiet content ok h h') (n : Nat) : h'.copy n = h.copy n := by
  rw [MemoryHierarchy.copy, hq.dcache, hq.bcache, MemoryHierarchy.copy]

theorem settles (hq : Quiet content ok h h') (hs : h.Sound ok) : Settles content ok .silent h h' :=
  (Settles.refl hs).congr (hq.sound hs) hq.alike hq.copy hq.port

end Quiet

def fetchAddr (addr : Word) : Word := addr &&& ~~~3

variable [BlockDevice π]

omit [BlockDevice π] in
theorem fetchAddr_toNat (addr : Word) : (fetchAddr addr).toNat = addr.toNat / 4 * 4 := by
  have hshift : fetchAddr addr = addr >>> 2 <<< 2 := LineSize.and_not_mask addr 2
  rw [hshift, BitVec.toNat_shiftLeft, BitVec.toNat_ushiftRight, Nat.shiftLeft_eq,
    Nat.shiftRight_eq_div_pow]
  omega

omit [BlockDevice π] in
theorem fetchAddr_mod (addr : Word) : (fetchAddr addr).toNat % 4 = 0 := by
  rw [fetchAddr_toNat]
  exact Nat.mul_mod_left _ 4

omit [BlockDevice π] in
theorem fetchAddr_within (hs : h.Sound ok) (addr : Word) : ¬h.Crosses (fetchAddr addr) 4 :=
  not_crosses_of_aligned hs (Nat.dvd_trans (by decide) hs.lineSize.eight_dvd) (fetchAddr_mod addr)

omit [BlockDevice π] in
theorem number_fetchAddr (hs : h.Sound ok) (addr : Word) :
    h.number (fetchAddr addr) = h.number addr := by
  obtain ⟨k, hk⟩ := Nat.dvd_trans (by decide : 4 ∣ 8) hs.lineSize.eight_dvd
  rw [number, number, fetchAddr_toNat, hk, ← Nat.div_div_eq_div_mul, ← Nat.div_div_eq_div_mul,
    Nat.mul_div_cancel _ (by decide)]

theorem newestLine_ends (hd : FlatDevice content ok answers) (hs : h.Sound ok) {base : Word}
    (hbase : base.toNat = h.number base * h.lineBytes) :
    (newestLine base h).Ends
      (fun r h' => Quiet content ok h h' ∧ h'.icache = h.icache ∧
        r.1 = h.blockOver (content h.port) (h.number base))
      (fun _ h' => Quiet content ok h h' ∧ ¬answers base h.lineBytes) False := by
  rw [newestLine, Step.bind_done (Step.get_apply h), Cache.lookup_eq_line hs.dcache,
    Cache.lookup_eq_line hs.bcache, number_bcache hs]
  cases hdl : h.dcache.line (h.dcache.number base) with
  | some l =>
    refine ⟨.withPort hs hs.port rfl, rfl, ?_⟩
    have hcopy : h.copy (h.number base) = some l := Sound.copy_of_dcache hdl
    rw [blockOver, hcopy]
  | none =>
    have hdl : h.dcache.line (h.number base) = none := hdl
    cases hbl : h.bcache.line (h.number base) with
    | some l =>
      refine ⟨.withPort hs hs.port rfl, rfl, ?_⟩
      rw [blockOver, hs.copy_of_bcache hbl]
    | none =>
      have hcopy : h.copy (h.number base) = none := by rw [copy, hdl, hbl, Option.or_none]
      have hr := hd.read_ends hs.port base h.lineBytes
      simp only [hs.icacheLine]
      refine Step.ends_bind ((onPort_ends hr).mono (fun _ _ hq => hq) ?_ id) ?_
      · rintro _ _ ⟨p, ⟨hok, hp, hans⟩, rfl⟩
        exact ⟨.withPort hs hok hp, hans⟩
      · rintro data _ ⟨p, ⟨hok, rfl, hp⟩, rfl⟩
        refine ⟨.withPort hs hok hp, rfl, ?_⟩
        rw [blockOver, hcopy, ← hbase]

theorem fetchUncached_ends (hd : FlatDevice content ok answers) (hs : h.Sound ok) (addr : Word) :
    (fetchUncached addr h).Ends
      (fun word h' => Quiet content ok h h' ∧
        word = longwordOf ((content h.port).bytes addr.toNat 4))
      (fun _ h' => Quiet content ok h h' ∧ ¬answers addr 4) False := by
  have hr := hd.read_ends hs.port addr 4
  refine Step.ends_bind ((onPort_ends hr).mono (fun _ _ hq => hq) ?_ id) ?_
  · rintro _ _ ⟨p, ⟨hok, hp, hans⟩, rfl⟩
    exact ⟨.withPort hs hok hp, hans⟩
  · rintro data _ ⟨p, ⟨hok, rfl, hp⟩, rfl⟩
    have hlen : ¬((content h.port).bytes addr.toNat 4).length < 4 := by
      rw [Memory.length_bytes]
      exact Nat.lt_irrefl 4
    simp only [if_neg hlen]
    exact ⟨.withPort hs hok hp, rfl⟩

omit [BlockDevice π] in
theorem readIcache_ends (content : π → Memory) (hs : h.Sound ok) (addr : Word) :
    (onCache .icache (Cache.read (fetchAddr addr) 4) h).Ends
      (fun bytes h' => Quiet content ok h h' ∧
        bytes = (h.icache.line (h.number addr)).map
          (fun l => Block.slice l.data ((fetchAddr addr).toNat % h.lineBytes) 4))
      (fun _ _ => False) False := by
  have hread := Cache.read_ends (ε := BusError) hs.icache (fetchAddr addr) 4
  have hnum : h.icache.number (fetchAddr addr) = h.number addr := by
    rw [← number_fetchAddr hs, Cache.number, hs.icacheLine, number]
  rw [hs.icacheLine, hnum] at hread
  refine (onCache_ends .icache hread).mono ?_ ?_ (fetchAddr_within hs addr)
  · rintro _ h' ⟨i, ⟨hbytes, hb, _⟩, rfl⟩
    exact ⟨⟨hs.port, ⟨_, hb⟩, rfl, rfl, rfl⟩, hbytes⟩
  · rintro _ _ ⟨_, he, _⟩
    exact he

omit [BlockDevice π] in
theorem fillIcache_ends (content : π → Memory) (hs : h.Sound ok) (he : h.icache.enabled = true)
    (base : Word) (hlen : data.length = h.lineBytes) :
    (onCache .icache (Cache.fill base data false) h).Ends
      (fun _ h' => Quiet content ok h h' ∧
        ∃ l, h'.icache.line (h.number base) = some l ∧ l.data = data)
      (fun _ _ => False) False := by
  have hnum : h.icache.number base = h.number base := by
    rw [Cache.number, hs.icacheLine, number]
  have hlen : data.length = h.icache.lineBytes := hlen.trans hs.icacheLine.symm
  have hfilled := Cache.filled_becomes hs.icache he base hlen false
  rw [onCache_done .icache (Cache.fill_apply he hlen base false)]
  have hline := hfilled.line (h.icache.number base)
  rw [if_pos rfl, hnum] at hline
  exact ⟨⟨hs.port, ⟨_, hfilled⟩, rfl, rfl, rfl⟩, _, hline, rfl⟩

omit [BlockDevice π] in
theorem contains_icache (hs : h.Sound ok) (addr : Word) :
    h.icache.contains addr = (h.icache.line (h.number addr)).isSome := by
  rw [Cache.contains_eq_isSome hs.icache, Cache.number, hs.icacheLine, number]

def refill (base addr : Word) : MemoryStep π (Longword × Access) := do
  let (block, access) ← newestLine base
  let _ ← onCache .icache (Cache.fill base block false)
  let bytes ← onCache .icache (Cache.read (fetchAddr addr) 4)
  return (longwordOf (bytes.getD []), access)

theorem refill_ends (hd : FlatDevice content ok answers) (hs : h.Sound ok)
    (he : h.icache.enabled = true) {base : Word}
    (hbase : Address.lineBase (fetchAddr addr) h.lineBytes = base) :
    (refill base addr h).Ends
      (fun r h' => Quiet content ok h h' ∧
        r.1 = longwordOf ((newest content h).bytes (fetchAddr addr).toNat 4))
      (fun _ h' => Quiet content ok h h' ∧ ¬answers base h.lineBytes) False := by
  have hnum : h.number base = h.number (fetchAddr addr) := by rw [← hbase, number_lineBase hs]
  have hplace : base.toNat = h.number base * h.lineBytes := by
    rw [hnum, ← hbase]
    exact hs.lineSize.toNat_lineBase _
  unfold refill
  refine Step.ends_bind ((newestLine_ends hd hs hplace).mono (fun _ _ hq => hq) (fun _ _ hq => hq) id)
    ?_
  rintro ⟨block, access⟩ h₁ ⟨hq₁, hicache, rfl⟩
  have hs₁ := hq₁.sound hs
  have hlen : (h.blockOver (content h.port) (h.number base)).length = h₁.lineBytes := by
    rw [hs.length_blockOver, hq₁.alike.lineBytes]
  refine Step.ends_bind (fillIcache_ends content hs₁ (by rw [hicache, he]) base hlen).of_sure ?_
  rintro _ h₂ ⟨hq₂, l, hl, hdata⟩
  have hq₂ := hq₁.trans hq₂
  refine Step.ends_bind (readIcache_ends content (hq₂.sound hs) addr).of_sure ?_
  rintro bytes h₃ ⟨hq₃, rfl⟩
  refine ⟨hq₂.trans hq₃, ?_⟩
  rw [hq₁.alike.number, hnum, number_fetchAddr hs, ← hq₂.alike.number] at hl
  rw [hl, Option.map_some, hdata, hnum, hq₂.alike.lineBytes]
  exact congrArg longwordOf (slice_blockOver hs (fetchAddr_within hs addr) _)

theorem fetch_gives (hd : FlatDevice content ok answers) (hs : h.Sound ok) (addr : Word) :
    (fetch addr h).Ends
      (fun r h' => Quiet content ok h h' ∧
        (h.icache.contains addr = false → r.1 = longwordOf
          ((if h.icache.enabled then newest content h else content h.port).bytes
            (fetchAddr addr).toNat 4)))
      (fun _ h' => Quiet content ok h h' ∧
        ¬(answers (Address.lineBase (fetchAddr addr) h.lineBytes) h.lineBytes ∧
          answers (fetchAddr addr) 4)) False := by
  rw [fetch, Step.bind_done (Step.get_apply h)]
  by_cases he : h.icache.enabled = true
  · simp only [if_pos he]
    refine Step.ends_bind (readIcache_ends content hs addr).of_sure ?_
    rintro hit h₁ ⟨hq₁, hhit⟩
    cases hit with
    | some bytes =>
      refine ⟨hq₁, fun habsent => ?_⟩
      rw [contains_icache hs, Option.isSome_eq_false_iff, Option.isNone_iff_eq_none] at habsent
      rw [habsent] at hhit
      cases hhit
    | none =>
      obtain ⟨f, hf⟩ := hq₁.icache
      have he₁ : h₁.icache.enabled = true := by rw [hf.enabled, he]
      have hbase : Address.lineBase (fetchAddr addr) h₁.lineBytes =
          Address.lineBase (fetchAddr addr) h.icache.lineBytes := by
        rw [hq₁.alike.lineBytes, hs.icacheLine]
      refine (refill_ends hd (hq₁.sound hs) he₁ hbase).mono ?_ ?_ id
      · rintro r h' ⟨hq, hr⟩
        refine ⟨hq₁.trans hq, fun _ => ?_⟩
        rw [hr, newest_congr hq₁.alike hq₁.copy hq₁.port]
      · rintro _ h' ⟨hq, hans⟩
        rw [hq₁.alike.lineBytes, hs.icacheLine] at hans
        exact ⟨hq₁.trans hq, fun ha => hans ha.1⟩
  · simp only [if_neg he]
    refine Step.ends_bind ((fetchUncached_ends hd hs _).mono (fun _ _ hq => hq) ?_ id) ?_
    · rintro _ h' ⟨hq, hans⟩
      exact ⟨hq, fun ha => hans ha.2⟩
    · rintro word h' ⟨hq, rfl⟩
      exact ⟨hq, fun _ => rfl⟩

theorem fetch_ends (hd : FlatDevice content ok answers) (hs : h.Sound ok) (addr : Word) :
    (fetch addr h).Ends (fun _ h' => Settles content ok .silent h h')
      (fun _ h' => Moves content ok .silent h h' ∧
        ¬(answers (Address.lineBase (fetchAddr addr) h.lineBytes) h.lineBytes ∧
          answers (fetchAddr addr) 4)) False := by
  refine (fetch_gives hd hs addr).mono ?_ ?_ id
  · rintro _ h' ⟨hq, -⟩
    exact hq.settles hs
  · rintro _ h' ⟨hq, hans⟩
    exact ⟨(hq.settles hs).toMoves, hans⟩

end MemoryHierarchy

end EV6
