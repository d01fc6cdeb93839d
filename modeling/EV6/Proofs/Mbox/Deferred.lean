import EV6.Proofs.Mbox.LoadHistory
/-!
Loads that wait are delivered once: by the first poll that is late enough and is handed the record,
unless the load was dropped before, and whatever loads have had the slot in the meantime.
-/

namespace EV6.Mbox

open Step Outcome

variable {h later earlier between : List LoadCall} {c : LoadCall} {slot seq due : Nat}
  {t : Nat × LoadEntry}

def LoadCall.Collects (slot seq due : Nat) : LoadCall → Prop
  | polled polls records _ => Mbox.Collects polls records slot seq due
  | _ => False

theorem mem_waiting_since {issue : LoadCall} (hu : Distinct (between ++ issue :: earlier))
    (hseq : issue.issuedSeq? = some seq) :
    t ∈ waiting (between ++ issue :: earlier) ∧ t.2.seq = seq ↔
      issue.ticket? = some t ∧ ∀ b ∈ between, b.spares seq = true := by
  induction between with
  | nil =>
    rw [List.nil_append, mem_waiting_cons]
    constructor
    · rintro ⟨ht | ⟨ht, -⟩, rfl⟩
      · exact ⟨ht, List.forall_mem_nil _⟩
      · exact absurd (mem_issuedSeqs_of_waiting ht) (hu.not_mem hseq)
    · rintro ⟨ht, -⟩
      exact ⟨.inl ht, Option.some.inj ((issuedSeq_of_ticket ht).symm.trans hseq)⟩
  | cons b between ih =>
    have hmem : seq ∈ issuedSeqs (between ++ issue :: earlier) :=
      mem_issuedSeqs_append between (mem_issuedSeqs_cons hseq)
    have hb : b.ticket? = some t → t.2.seq ≠ seq := by
      rintro ht rfl
      exact hu.not_mem (issuedSeq_of_ticket ht) hmem
    rw [List.cons_append, mem_waiting_cons, List.forall_mem_cons]
    constructor
    · rintro ⟨ht | ⟨ht, hspares⟩, rfl⟩
      · exact absurd rfl (hb ht)
      · obtain ⟨hticket, hrest⟩ := (ih hu.tail).mp ⟨ht, rfl⟩
        exact ⟨hticket, hspares, hrest⟩
    · rintro ⟨hticket, hspares, hrest⟩
      obtain ⟨ht, rfl⟩ := (ih hu.tail).mpr ⟨hticket, hrest⟩
      exact ⟨.inr ⟨ht, hspares⟩, rfl⟩

theorem issued_of_waiting (ht : t ∈ waiting h) : ∃ c ∈ h, c.ticket? = some t := by
  induction h with
  | nil => cases ht
  | cons c h ih =>
    rcases mem_waiting_cons.mp ht with hc | ⟨ht, -⟩
    · exact ⟨c, List.mem_cons_self, hc⟩
    · obtain ⟨c', hc', hticket⟩ := ih ht
      exact ⟨c', List.mem_cons_of_mem _ hc', hticket⟩

variable {π : Type} [BlockDevice π] {config : Config} {m m' : Mbox π}

theorem LoadStep.delivers_iff (hs : LoadStep m c m') (ha : Accounts h m.loads)
    (hc : c.issuedSeq? ≠ some seq) :
    seq ∈ c.delivered ↔ ∃ t ∈ waiting h, t.2.seq = seq ∧ c.Collects t.1 seq t.2.readyAt := by
  cases hs with
  | @issued i j va pa width answer m' hrun =>
    have hnone :
        seq ∉ (LoadCall.issued m.polls i va pa width (m.found i pa width) j).delivered := by
      rw [LoadCall.delivered]
      split
      · exact fun hd => hc (congrArg some (List.mem_singleton.mp hd).symm)
      · exact List.not_mem_nil
    simp [hnone, LoadCall.Collects]
  | refused hrun => simp [LoadCall.delivered, LoadCall.Collects]
  | polled records =>
    refine mem_deliveredSeqs.trans ⟨?_, ?_⟩
    · rintro ⟨slot, e, he, hseq, hcollects⟩
      exact ⟨(slot, e), (ha.slots slot e).mp he, hseq, hcollects⟩
    · rintro ⟨⟨slot, e⟩, ht, hseq, hcollects⟩
      exact ⟨slot, e, (ha.slots slot e).mpr ht, hseq, hcollects⟩
  | squashed first => simp [LoadCall.delivered, LoadCall.Collects]
  | cleared => simp [LoadCall.delivered, LoadCall.Collects]

theorem LoadStep.nodup_delivered (hs : LoadStep m c m') (ha : Accounts h m.loads)
    (hu : Distinct h) : c.delivered.Nodup := by
  cases hs with
  | issued hrun =>
    rw [LoadCall.delivered]
    split
    · exact List.nodup_singleton _
    · exact .nil
  | refused hrun => exact .nil
  | polled records => exact nodup_deliveredSeqs (ha.apart hu) records
  | squashed seq => exact .nil
  | cleared => exact .nil

structure Deliveries (h : List LoadCall) : Prop where
  issued : ∀ seq ∈ h.flatMap LoadCall.delivered, seq ∈ issuedSeqs h
  waiting : ∀ t ∈ waiting h, t.2.seq ∉ h.flatMap LoadCall.delivered
  once : (h.flatMap LoadCall.delivered).Nodup

theorem delivered_of_ticket (ht : c.ticket? = some t) : c.delivered = [] := by
  obtain ⟨_, _, _, _, _, _, _, j, rfl, hslot, -⟩ := issued_of_ticket ht
  rw [LoadCall.delivered, if_neg]
  rw [hslot]
  exact Option.some_ne_none t.1

theorem Deliveries.step (hd : Deliveries h) (hs : LoadStep m c m') (ha : Accounts h m.loads)
    (hu : Distinct (c :: h)) : Deliveries (c :: h) := by
  have hcases : ∀ seq ∈ c.delivered,
      c.issuedSeq? = some seq ∨ ∃ t ∈ Mbox.waiting h, t.2.seq = seq := by
    intro seq hseq
    by_cases hc : c.issuedSeq? = some seq
    · exact .inl hc
    · obtain ⟨t, ht, heq, -⟩ := (hs.delivers_iff ha hc).mp hseq
      exact .inr ⟨t, ht, heq⟩
  have hnew : ∀ seq ∈ c.delivered, seq ∉ h.flatMap LoadCall.delivered := by
    intro seq hseq hold
    rcases hcases seq hseq with hc | ⟨t, ht, rfl⟩
    · exact hu.not_mem hc (hd.issued seq hold)
    · exact hd.waiting t ht hold
  refine ⟨?_, ?_, ?_⟩
  · intro seq hseq
    rw [List.flatMap_cons, List.mem_append] at hseq
    rcases hseq with hseq | hseq
    · rcases hcases seq hseq with hc | ⟨t, ht, rfl⟩
      · exact mem_issuedSeqs_cons hc
      · exact mem_issuedSeqs_append [c] (mem_issuedSeqs_of_waiting ht)
    · exact mem_issuedSeqs_append [c] (hd.issued seq hseq)
  · intro t ht
    rw [List.flatMap_cons, List.mem_append, not_or]
    rcases mem_waiting_cons.mp ht with hticket | ⟨ht, hspares⟩
    · rw [delivered_of_ticket hticket]
      refine ⟨List.not_mem_nil, fun hold => ?_⟩
      exact hu.not_mem (issuedSeq_of_ticket hticket) (hd.issued _ hold)
    · exact ⟨(LoadCall.spares_iff.mp hspares).2, hd.waiting t ht⟩
  · rw [List.flatMap_cons]
    refine List.Nodup.append (hs.nodup_delivered ha hu.tail) hd.once ?_
    exact fun seq hseq hold => hnew seq hseq hold

theorem LoadRun.deliveries (hr : LoadRun config h m) (hu : Distinct h) : Deliveries h := by
  induction hr with
  | start hm => exact ⟨by simp, by simp [Mbox.waiting], .nil⟩
  | other stores memory _ ih => exact ih hu
  | call hr hs ih => exact (ih hu.tail).step hs (hr.accounts hu.tail) hu

variable {issue : LoadCall}

theorem LoadRun.delivers_iff (hr : LoadRun config (later ++ c :: (between ++ issue :: earlier)) m)
    (hu : Distinct (later ++ c :: (between ++ issue :: earlier)))
    (hseq : issue.issuedSeq? = some seq) :
    seq ∈ c.delivered ↔ ∃ t, issue.ticket? = some t ∧ c.Collects t.1 seq t.2.readyAt ∧
      ∀ b ∈ between, b.spares seq = true := by
  obtain ⟨m₀, m₁, hr₀, hs⟩ := hr.split
  have hu := hu.of_append
  have hmem : seq ∈ issuedSeqs (between ++ issue :: earlier) :=
    mem_issuedSeqs_append between (mem_issuedSeqs_cons hseq)
  rw [hs.delivers_iff (hr₀.accounts hu.tail) fun hc => hu.not_mem hc hmem]
  constructor
  · rintro ⟨t, ht, heq, hcollects⟩
    obtain ⟨hticket, hspares⟩ := (mem_waiting_since hu.tail hseq).mp ⟨ht, heq⟩
    exact ⟨t, hticket, hcollects, hspares⟩
  · rintro ⟨t, hticket, hcollects, hspares⟩
    obtain ⟨ht, heq⟩ := (mem_waiting_since hu.tail hseq).mpr ⟨hticket, hspares⟩
    exact ⟨t, ht, heq, hcollects⟩

theorem LoadRun.delivers_iff_of_ticket
    (hr : LoadRun config (later ++ c :: (between ++ issue :: earlier)) m)
    (hu : Distinct (later ++ c :: (between ++ issue :: earlier)))
    (hseq : issue.issuedSeq? = some seq) (ht : issue.ticket? = some t) :
    seq ∈ c.delivered ↔
      c.Collects t.1 seq t.2.readyAt ∧ ∀ b ∈ between, b.spares seq = true := by
  rw [hr.delivers_iff hu hseq]
  constructor
  · rintro ⟨t', ht', hc⟩
    cases ht.symm.trans ht'
    exact hc
  · exact fun hc => ⟨t, ht, hc⟩

theorem LoadRun.spares_iff (hr : LoadRun config (later ++ (between ++ issue :: earlier)) m)
    (hu : Distinct (later ++ (between ++ issue :: earlier)))
    (hseq : issue.issuedSeq? = some seq) (ht : issue.ticket? = some t) :
    (∀ b ∈ between, b.spares seq = true) ↔
      ∀ b ∈ between, b.drops seq = false ∧ ¬b.Collects t.1 seq t.2.readyAt := by
  induction between generalizing later with
  | nil => simp
  | cons b between ih =>
    have hassoc : later ++ (b :: between ++ issue :: earlier) =
        (later ++ [b]) ++ (between ++ issue :: earlier) := by simp
    rw [List.forall_mem_cons, List.forall_mem_cons, ih (hassoc ▸ hr) (hassoc ▸ hu)]
    refine and_congr_left fun hrest => ?_
    have hspared := (ih (hassoc ▸ hr) (hassoc ▸ hu)).mpr hrest
    rw [LoadCall.spares_iff, hr.delivers_iff_of_ticket hu hseq ht, and_iff_left hspared]

theorem LoadRun.delivers_iff_collects
    (hr : LoadRun config (later ++ c :: between ++ issue :: earlier) m)
    (hu : Distinct (later ++ c :: between ++ issue :: earlier))
    (hseq : issue.issuedSeq? = some seq) (ht : issue.ticket? = some t) :
    seq ∈ c.delivered ↔ c.Collects t.1 seq t.2.readyAt ∧
      ∀ b ∈ between, b.drops seq = false ∧ ¬b.Collects t.1 seq t.2.readyAt := by
  have hassoc : later ++ c :: between ++ issue :: earlier =
      (later ++ [c]) ++ (between ++ issue :: earlier) := by simp
  have hspares := LoadRun.spares_iff (hassoc ▸ hr) (hassoc ▸ hu) hseq ht
  rw [List.append_assoc] at hr hu
  rw [hr.delivers_iff_of_ticket hu hseq ht, hspares]

theorem LoadRun.not_delivered_after (hr : LoadRun config (later ++ issue :: earlier) m)
    (hu : Distinct (later ++ issue :: earlier)) (hseq : issue.issuedSeq? = some seq)
    (ht : issue.ticket? = none) : ∀ c ∈ later, seq ∉ c.delivered := by
  intro c hc hd
  obtain ⟨after, between, rfl⟩ := List.append_of_mem hc
  rw [List.append_assoc] at hr hu
  obtain ⟨t, ht', -⟩ := (hr.delivers_iff hu hseq).mp hd
  cases ht.symm.trans ht'

theorem LoadRun.not_delivered_before (hr : LoadRun config (later ++ issue :: earlier) m)
    (hu : Distinct (later ++ issue :: earlier)) (hseq : issue.issuedSeq? = some seq) :
    ∀ b ∈ earlier, seq ∉ b.delivered := by
  intro b hb hd
  obtain ⟨m₀, m₁, hr₀, -⟩ := hr.split
  have hu := hu.of_append
  exact hu.not_mem hseq ((hr₀.deliveries hu.tail).issued seq (List.mem_flatMap.mpr ⟨b, hb, hd⟩))

/-- A load gets its data once: when it is issued if there is nothing to wait for, or else from the
first poll that is late enough and is handed the record, unless it is dropped before. -/
structure DeliveredOnce (later earlier : List LoadCall) (polls : Nat) (i j : Instruction)
    (raw : Word) (latency : Nat) : Prop where
  before : ∀ c ∈ earlier, i.seq ∉ c.delivered
  atOnce : latency = 0 → j = i.delivered raw ∧ ∀ c ∈ later, i.seq ∉ c.delivered
  byPoll : latency ≠ 0 → ∃ slot, j = { i with slot := some slot } ∧
    ∀ after c between, later = after ++ c :: between →
      (i.seq ∈ c.delivered ↔ c.Collects slot i.seq (polls + latency) ∧
        ∀ b ∈ between, b.drops i.seq = false ∧ ¬b.Collects slot i.seq (polls + latency))

def OwnData (earlier : List LoadCall) (records answers : List Instruction) : Prop :=
  answers.length = records.length ∧
    ∀ (n : Nat) (r a : Instruction), records[n]? = some r → answers[n]? = some a →
      a = r ∨ ∃ polls i va pa width raw access j,
        .issued polls i va pa width (some (raw, access)) j ∈ earlier ∧ i.seq = r.seq ∧
          j.slot = r.slot ∧ r.slot ≠ none ∧ a = r.delivered raw

theorem LoadRun.deliveredOnce {polls : Nat} {i j : Instruction} {va pa : Word} {width : Width}
    {found : Option (Word × Access)}
    (hr : LoadRun config (later ++ .issued polls i va pa width found j :: earlier) m)
    (hu : Distinct (later ++ .issued polls i va pa width found j :: earlier)) :
    ∃ raw access, found = some (raw, access) ∧
      DeliveredOnce later earlier polls i j raw access.latency := by
  obtain ⟨m₀, m₁, -, hs⟩ := hr.split
  cases hs with
  | @issued _ _ _ _ _ answer _ hrun =>
    have hends := issueLoad_takes m₀ i va pa width
    rw [hrun] at hends
    obtain ⟨raw, hfound, hanswer⟩ := hends
    rw [hfound] at hr hu
    refine ⟨raw, answer.access, hfound, hr.not_delivered_before hu rfl, fun hlatency => ?_,
      fun hlatency => ?_⟩
    · rcases hanswer with ⟨-, rfl, -⟩ | ⟨hne, -⟩
      · exact ⟨rfl, hr.not_delivered_after hu rfl rfl⟩
      · exact absurd hlatency hne
    · rcases hanswer with ⟨heq, -⟩ | ⟨-, slot, -, -, rfl, -⟩
      · exact absurd heq hlatency
      · refine ⟨slot, rfl, ?_⟩
        rintro after c between rfl
        exact hr.delivers_iff_collects hu rfl rfl

theorem LoadRun.ownData {polls : Nat} {records answers : List Instruction}
    (hr : LoadRun config (later ++ .polled polls records answers :: earlier) m)
    (hu : Distinct (later ++ .polled polls records answers :: earlier)) :
    OwnData earlier records answers := by
  obtain ⟨m₀, m₁, hr₀, hs⟩ := hr.split
  have ha := hr₀.accounts hu.of_append.tail
  cases hs with
  | polled =>
    refine ⟨deliverAll_length _ _ records, fun n r a hrecord hanswer => ?_⟩
    refine (deliverAll_spec hrecord hanswer).imp_right ?_
    rintro ⟨slot, e, hslot, he, hseq, -, rfl⟩
    obtain ⟨c, hc, hticket⟩ := issued_of_waiting ((ha.slots slot e).mp he)
    obtain ⟨polls, i, va, pa, width, raw, access, j, rfl, hj, rfl⟩ := issued_of_ticket hticket
    refine ⟨polls, i, va, pa, width, raw, access, j, hc, hseq, hj.trans hslot.symm, ?_, rfl⟩
    rw [hslot]
    exact Option.some_ne_none slot

theorem deferred_loads_delivered_once (hr : LoadRun config h m) (hu : Distinct h) :
    (∀ later polls i va pa width found j earlier,
      h = later ++ .issued polls i va pa width found j :: earlier →
        ∃ raw access, found = some (raw, access) ∧
          DeliveredOnce later earlier polls i j raw access.latency) ∧
    (h.flatMap LoadCall.delivered).Nodup ∧
    (∀ later polls records answers earlier,
      h = later ++ .polled polls records answers :: earlier → OwnData earlier records answers) ∧
    (m.loads.size = m.loads.slots.countP Option.isSome ∧ m.loads.size = (waiting h).length) ∧
    (∀ i va pa width, (issueLoad i va pa width m).Ends
      (fun a m' => a.2.access.latency = 0 → m'.loads = m.loads)
      (fun _ m' => m'.loads = m.loads ∧ ¬m.CanIssue i pa width) (¬m.CanIssue i pa width)) ∧
    (m.polls + 1 < Machine.limit → ∀ records, m.pollChecked records = .ok (m.poll records)) := by
  have ha := hr.accounts hu
  refine ⟨?_, (hr.deliveries hu).once, ?_, ⟨ha.counted, ha.count_eq hu⟩, ?_, ?_⟩
  · rintro later polls i va pa width found j earlier rfl
    exact hr.deliveredOnce hu
  · rintro later polls records answers earlier rfl
    exact hr.ownData hu
  · intro i va pa width
    refine (issueLoad_takes m i va pa width).mono ?_ (fun _ _ h => h) id
    rintro a m' ⟨raw, -, ⟨-, -, hloads⟩ | ⟨hne, -⟩⟩ hlatency
    · exact hloads
    · exact absurd hlatency hne
  · exact fun hclock records => pollChecked_eq ha.counted hclock records

def slowConfig : Config :=
  { MemoryHierarchy.sampleConfig with
    memory := { MemoryHierarchy.sampleConfig.memory with memoryLatency := 2 } }

def quadLoad (seq : Nat) : Instruction := .ofMnemonic (.load .ldq) seq

def sampleRecords : List Instruction :=
  [{ quadLoad 3 with slot := some 0 }, { quadLoad 4 with slot := some 0 }]

theorem deferred_loads_delivered_once_reused_slot :
    ∃ (h : List LoadCall) (m : Mbox MemoryPort), LoadRun slowConfig h m ∧ Distinct h ∧
      h.map LoadCall.delivered = [[5], [4], [], [], [], []] ∧
      (h.flatMap LoadCall.delivered).Nodup ∧ m.loads.size = (waiting h).length := by
  have hstart : LoadRun slowConfig [] _ :=
    .start (show ofConfig slowConfig MemoryPort.sample = _ from rfl)
  have hrun := hstart.call (.issued (show issueLoad (quadLoad 3) 8 8 .quad _ = _ from rfl))
  have hrun := hrun.call (.squashed 3)
  have hrun := hrun.call (.issued (show issueLoad (quadLoad 4) 16 16 .quad _ = _ from rfl))
  have hrun := hrun.call (.polled sampleRecords)
  have hrun := hrun.call (.polled sampleRecords)
  have hrun := hrun.call (.issued (show issueLoad (quadLoad 5) 8 8 .quad _ = _ from rfl))
  have hdistinct : [5, 4, 3].Nodup := by decide
  obtain ⟨-, honce, -, ⟨-, hsize⟩, -⟩ := deferred_loads_delivered_once hrun hdistinct
  exact ⟨_, _, hrun, hdistinct, rfl, honce, hsize⟩

end EV6.Mbox
