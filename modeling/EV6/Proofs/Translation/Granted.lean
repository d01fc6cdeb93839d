import EV6.Proofs.Translation.Misses
import EV6.Proofs.Translation.Quadword

namespace EV6

open Address

inductive Superpage where
  | low
  | middle
  | high
  deriving DecidableEq, Repr

namespace Superpage

def index : Superpage → Nat
  | low => 0
  | middle => 1
  | high => 2

def start : Superpage → Nat
  | low => 0xFFFFFFFF80000000
  | middle => 0xFFFFFC0000000000
  | high => 0xFFFF800000000000

def bytes : Superpage → Nat
  | low => 2 ^ 30
  | middle => 2 ^ 41
  | high => 2 ^ 46

/-- The lowest 30, 41 or 44 bits of an address; of 41 the highest is a sign for those above it. -/
def image (va : Word) : Superpage → Word
  | low => (va.setWidth 30).setWidth 64
  | middle => ((va.setWidth 41).signExtend 44).setWidth 64
  | high => (va.setWidth 44).setWidth 64

def Covers (w : Superpage) (va : Word) : Prop := w.start ≤ va.toNat ∧ va.toNat < w.start + w.bytes

theorem Covers.unique {v w : Superpage} {va : Word} (hv : v.Covers va) (hw : w.Covers va) :
    v = w := by
  cases v <;> cases w <;> simp only [Covers, start, bytes] at hv hw <;> first | rfl | omega

def selects (va : Word) : Superpage → Bool
  | low => va.extractLsb' 30 18 == 0x3FFFE
  | middle => va.extractLsb' 41 7 == 0x7E
  | high => va.extractLsb' 46 2 == 2

end Superpage

def Address.InRange (va : Word) : Prop :=
  -0x800000000000 ≤ va.toInt ∧ va.toInt < 0x800000000000

namespace PageEntry

def enables (e : PageEntry) : AccessKind → BitVec 4
  | .fetch | .read => e.readable
  | .write => e.writable

def faultsOn (e : PageEntry) : AccessKind → Bool
  | .fetch => e.faultOnExecute
  | .read => e.faultOnRead
  | .write => e.faultOnWrite

def base (e : PageEntry) : Nat := e.frame.toNat * 2 ^ pageBits / e.pageBytes * e.pageBytes

structure Grants (e : PageEntry) (va : Word) (asn : Byte) (access : AccessKind)
    (mode : ProcessorMode) (pa : Word) : Prop where
  space : e.anySpace = true ∨ e.asn = asn
  page : e.tag.toNat = va.toNat % 2 ^ virtualBits / e.pageBytes
  enabled : (e.enables access).getLsbD mode.toNat = true
  valid : e.valid = true
  clear : e.faultsOn access = false
  address : pa.toNat = e.base + va.toNat % e.pageBytes

variable {e : PageEntry} {va pa : Word} {asn : Byte} {access : AccessKind} {mode : ProcessorMode}

theorem pageBytes_eq (e : PageEntry) : e.pageBytes = 2 ^ shiftOf e.granularity :=
  Nat.one_shiftLeft _

theorem toNat_tagOf (va : Word) (granularity : BitVec 2) :
    (tagOf va granularity).toNat = va.toNat % 2 ^ virtualBits / 2 ^ shiftOf granularity := by
  have hlt : va.toNat % 2 ^ virtualBits < 2 ^ 64 := Nat.lt_of_le_of_lt (Nat.mod_le _ _) va.isLt
  rw [tagOf, BitVec.toNat_ushiftRight, Nat.shiftRight_eq_div_pow, BitVec.toNat_setWidth,
    BitVec.toNat_setWidth, Nat.mod_eq_of_lt hlt]

theorem matchesAddress_iff : e.matchesAddress va asn = true ↔
    (e.anySpace = true ∨ e.asn = asn) ∧
      e.tag.toNat = va.toNat % 2 ^ virtualBits / e.pageBytes := by
  rw [matchesAddress, Bool.and_eq_true, Bool.or_eq_true, beq_iff_eq, beq_iff_eq, pageBytes_eq,
    ← toNat_tagOf, BitVec.toNat_inj]

theorem toNat_physical (h : e.frame.toNat < 2 ^ 32) (va : Word) :
    (e.physical va).toNat = e.base + va.toNat % e.pageBytes := by
  have hframe : (e.frame <<< pageBits).toNat = e.frame.toNat * 2 ^ pageBits := by
    rw [BitVec.toNat_shiftLeft, Nat.shiftLeft_eq, Nat.mod_eq_of_lt]
    unfold pageBits
    omega
  have hhigh := e.lineSize_pageBytes.toNat_lineBase (e.frame <<< pageBits)
  have hlow := e.lineSize_pageBytes.lineOffset_eq va
  have hlt := Nat.mod_lt va.toNat e.lineSize_pageBytes.pos
  rw [hframe] at hhigh
  change (lineBase (e.frame <<< pageBits) e.pageBytes |||
    (va &&& (BitVec.ofNat 64 e.pageBytes - 1))).toNat = _
  rw [BitVec.toNat_or, hhigh]
  change _ ||| lineOffset va e.pageBytes = _
  -- The frame has no bit below the size of the page, so joining the offset to it is adding it.
  rw [hlow, base]
  rw [pageBytes_eq] at hlt ⊢
  rw [Nat.mul_comm, Nat.two_pow_add_eq_or_of_lt hlt]

theorem permits_eq (e : PageEntry) (access : AccessKind) (mode : ProcessorMode) :
    e.permits access mode = (e.enables access).getLsbD mode.toNat := by
  cases access <;> rfl

theorem checkAccess_eq_ok_iff : TranslationUnit.checkAccess e va access mode = .ok pa ↔
    (e.enables access).getLsbD mode.toNat = true ∧ e.valid = true ∧ e.faultsOn access = false ∧
      pa = e.physical va := by
  unfold TranslationUnit.checkAccess
  rw [permits_eq]
  cases (e.enables access).getLsbD mode.toNat
  · simp
  · cases e.valid
    · simp
    · cases access with
      | fetch =>
        rw [faultsOn]
        cases e.faultOnExecute <;> simp [eq_comm (a := pa)]
      | read =>
        rw [faultsOn]
        cases e.faultOnRead <;> simp [eq_comm (a := pa)]
      | write =>
        rw [faultsOn]
        cases e.faultOnWrite <;> simp [eq_comm (a := pa)]

theorem grants_iff (h : e.frame.toNat < 2 ^ 32) : e.Grants va asn access mode pa ↔
    e.matchesAddress va asn = true ∧ TranslationUnit.checkAccess e va access mode = .ok pa := by
  rw [matchesAddress_iff, checkAccess_eq_ok_iff, ← BitVec.toNat_inj (x := pa), toNat_physical h]
  constructor
  · exact fun ⟨hspace, hpage, henabled, hvalid, hclear, haddress⟩ =>
      ⟨⟨hspace, hpage⟩, henabled, hvalid, hclear, haddress⟩
  · exact fun ⟨⟨hspace, hpage⟩, henabled, hvalid, hclear, haddress⟩ =>
      ⟨hspace, hpage, henabled, hvalid, hclear, haddress⟩

end PageEntry

namespace TranslationUnit

variable {u : TranslationUnit} {va pa : Word} {access : AccessKind} {mode : ProcessorMode}
  {iprs : InternalRegisters}

theorem isCanonical_iff_inRange (va : Word) : isCanonical va = true ↔ InRange va := by
  rw [isCanonical, beq_iff_eq, ← BitVec.toInt_inj, BitVec.toInt_signExtend_of_le (by decide),
    BitVec.toInt_setWidth, InRange, BitVec.toInt_eq_toNat_cond]
  have := va.isLt
  rw [Int.bmod]
  split <;> split <;> omega

theorem and_ofNat (va : Word) {n : Nat} (h : n ≤ 64) :
    va &&& BitVec.ofNat 64 (2 ^ n - 1) = (va.setWidth n).setWidth 64 := by
  refine BitVec.eq_of_toNat_eq ?_
  have hpow := Nat.pow_le_pow_right (n := 2) (by decide) h
  have hpos := Nat.two_pow_pos n
  have hlt : va.toNat % 2 ^ n < 2 ^ 64 := Nat.lt_of_lt_of_le (Nat.mod_lt _ hpos) hpow
  rw [BitVec.toNat_and, BitVec.toNat_ofNat, Nat.mod_eq_of_lt (by omega),
    Nat.and_two_pow_sub_one_eq_mod, BitVec.toNat_setWidth, BitVec.toNat_setWidth,
    Nat.mod_eq_of_lt hlt]

theorem or_sign (va : Word) : (va &&& 0x000001FFFFFFFFFF) |||
    (if va.getLsbD 40 then 0x00000E0000000000 else 0) = Superpage.middle.image va := by
  change (va &&& BitVec.ofNat 64 (2 ^ 41 - 1)) ||| _ = _
  rw [and_ofNat va (by decide)]
  have hmsb : (va.setWidth 41).msb = va.getLsbD 40 := by
    rw [BitVec.msb_eq_getLsbD_last, BitVec.getLsbD_setWidth]
    rfl
  have hlt : va.toNat % 2 ^ 41 < 2 ^ 41 := Nat.mod_lt _ (by decide)
  refine BitVec.eq_of_toNat_eq ?_
  simp only [Superpage.image, BitVec.toNat_or, BitVec.toNat_setWidth, BitVec.toNat_signExtend, hmsb]
  split
  · -- The sign is the number seven above the 41 bits.
    have hor := Nat.two_pow_add_eq_or_of_lt hlt 7
    rw [Nat.or_comm] at hor
    rw [Nat.mod_eq_of_lt (Nat.lt_trans hlt (by decide))]
    refine hor.symm.trans ?_
    omega
  · rw [show (0 : Word).toNat = 0 from rfl, Nat.or_zero]
    omega

theorem extract_beq_iff (va : Word) (start : Nat) {len : Nat} (field : BitVec len) :
    (va.extractLsb' start len == field) = true ↔ va.toNat / 2 ^ start % 2 ^ len = field.toNat := by
  rw [beq_iff_eq, ← BitVec.toNat_inj, BitVec.extractLsb'_toNat, Nat.shiftRight_eq_div_pow]

theorem toNat_of_inRange (h : InRange va) : va.toNat < 2 ^ 47 ∨ 2 ^ 64 - 2 ^ 47 ≤ va.toNat := by
  rw [InRange, BitVec.toInt_eq_toNat_cond] at h
  have := va.isLt
  split at h <;> omega

theorem selects_iff (h : InRange va) (w : Superpage) : w.selects va = true ↔ w.Covers va := by
  have hlt := va.isLt
  have hends := toNat_of_inRange h
  cases w with
  | low =>
    rw [Superpage.selects, extract_beq_iff, show (0x3FFFE : BitVec 18).toNat = 0x3FFFE from rfl]
    simp only [Superpage.Covers, Superpage.start, Superpage.bytes]
    omega
  | middle =>
    rw [Superpage.selects, extract_beq_iff, show (0x7E : BitVec 7).toNat = 0x7E from rfl]
    simp only [Superpage.Covers, Superpage.start, Superpage.bytes]
    omega
  | high =>
    rw [Superpage.selects, extract_beq_iff, show (2 : BitVec 2).toNat = 2 from rfl]
    simp only [Superpage.Covers, Superpage.start, Superpage.bytes]
    omega

theorem superpage_eq (va : Word) (enabled : BitVec 3) : superpage va enabled =
    ([.high, .middle, .low].find? fun w : Superpage =>
      enabled.getLsbD w.index && w.selects va).map (·.image va) := by
  rw [superpage, or_sign]
  change (if _ then some (va &&& BitVec.ofNat 64 (2 ^ 44 - 1)) else if _ then _ else
    if _ then some (va &&& BitVec.ofNat 64 (2 ^ 30 - 1)) else none) = _
  rw [and_ofNat va (by decide), and_ofNat va (by decide)]
  simp only [List.find?_cons, Superpage.index, Superpage.selects]
  cases enabled.getLsbD 2 && va.extractLsb' 46 2 == 2 with
  | true => rfl
  | false =>
    cases enabled.getLsbD 1 && va.extractLsb' 41 7 == 0x7E with
    | true => rfl
    | false => cases enabled.getLsbD 0 && va.extractLsb' 30 18 == 0x3FFFE <;> rfl

theorem superpage_eq_some_iff (h : InRange va) {enabled : BitVec 3} :
    superpage va enabled = some pa ↔
      ∃ w : Superpage, enabled.getLsbD w.index = true ∧ w.Covers va ∧ pa = w.image va := by
  rw [superpage_eq, Option.map_eq_some_iff]
  constructor
  · rintro ⟨w, hw, rfl⟩
    have hfound := List.find?_some hw
    obtain ⟨henabled, hselects⟩ := Bool.and_eq_true_iff.mp hfound
    exact ⟨w, henabled, (selects_iff h w).mp hselects, rfl⟩
  · rintro ⟨w, henabled, hcovers, rfl⟩
    have hselects := (selects_iff h w).mpr hcovers
    cases hfound : [.high, .middle, .low].find? fun w : Superpage =>
        enabled.getLsbD w.index && w.selects va with
    | none =>
      have hno := List.find?_eq_none.mp hfound w (by cases w <;> decide)
      simp [henabled, hselects] at hno
    | some v =>
      -- The windows are apart, so the one that is found first is the only one.
      have hv := List.find?_some hfound
      have hv := (Bool.and_eq_true_iff.mp hv).2
      exact ⟨v, rfl, by rw [Superpage.Covers.unique ((selects_iff h v).mp hv) hcovers]⟩

structure Maps (w : Superpage) (va : Word) (access : AccessKind) (mode : ProcessorMode)
    (iprs : InternalRegisters) : Prop where
  kernel : mode = .kernel
  enabled : (match access.stream with
    | .instruction => iprs.itbSuperpages
    | .data => iprs.dtbSuperpages).getLsbD w.index = true
  covers : w.Covers va

theorem kernelSuperpage_eq_some_iff (h : InRange va) :
    kernelSuperpage va access mode iprs = some pa ↔
      ∃ w, Maps w va access mode iprs ∧ pa = w.image va := by
  have henabled : (if access.isInstruction then iprs.itbSuperpages else iprs.dtbSuperpages) =
      match access.stream with
      | .instruction => iprs.itbSuperpages
      | .data => iprs.dtbSuperpages := by
    cases access <;> rfl
  unfold kernelSuperpage
  split
  · rw [superpage_eq_some_iff h, henabled]
    constructor
    · exact fun ⟨w, hw, hcovers, hpa⟩ => ⟨w, ⟨‹_›, hw, hcovers⟩, hpa⟩
    · exact fun ⟨w, ⟨_, hw, hcovers⟩, hpa⟩ => ⟨w, hw, hcovers, hpa⟩
  · refine iff_of_false (fun hnone => ?_) fun ⟨_, hmaps, _⟩ => absurd hmaps.kernel ‹_›
    cases hnone

theorem kernelSuperpage_eq_none_iff (h : InRange va) :
    kernelSuperpage va access mode iprs = none ↔ ∀ w, ¬Maps w va access mode iprs := by
  rw [Option.eq_none_iff_forall_ne_some]
  constructor
  · exact fun hnone w hw => hnone _ ((kernelSuperpage_eq_some_iff h).mpr ⟨w, hw, rfl⟩)
  · intro hno pa hpa
    obtain ⟨w, hw, -⟩ := (kernelSuperpage_eq_some_iff h).mp hpa
    exact hno w hw

def FramesFit (u : TranslationUnit) : Prop :=
  ∀ s i e, (u.buffer s).Holds i e → e.frame.toNat < 2 ^ 32

def Grants (u : TranslationUnit) (va : Word) (access : AccessKind) (mode : ProcessorMode)
    (iprs : InternalRegisters) (pa : Word) : Prop :=
  InRange va ∧
    ((∃ w, Maps w va access mode iprs ∧ pa = w.image va) ∨
      (∀ w, ¬Maps w va access mode iprs) ∧
        ∃ i e, (u.buffer access.stream).Holds i e ∧
          (u.buffer access.stream).FirstAt va (spaceOf access iprs) i ∧
          e.Grants va (spaceOf access iprs) access mode pa)

theorem lookup_grants_iff (hf : u.FramesFit) :
    ((u.stream access).lookup va (spaceOf access iprs)).map
        (fun e => checkAccess e va access mode) = some (.ok pa) ↔
      ∃ i e, (u.buffer access.stream).Holds i e ∧
        (u.buffer access.stream).FirstAt va (spaceOf access iprs) i ∧
        e.Grants va (spaceOf access iprs) access mode pa := by
  rw [stream_eq, Option.map_eq_some_iff]
  constructor
  · rintro ⟨e, he, hcheck⟩
    obtain ⟨i, hi, hmatches, hfirst⟩ := TranslationBuffer.lookup_eq_some_iff.mp he
    exact ⟨i, e, hi, hfirst, (PageEntry.grants_iff (hf _ i e hi)).mpr ⟨hmatches, hcheck⟩⟩
  · rintro ⟨i, e, hi, hfirst, hgrants⟩
    obtain ⟨hmatches, hcheck⟩ := (PageEntry.grants_iff (hf _ i e hi)).mp hgrants
    exact ⟨e, TranslationBuffer.lookup_eq_some_iff.mpr ⟨i, hi, hmatches, hfirst⟩, hcheck⟩

theorem resolve_eq_ok_iff (hf : u.FramesFit) :
    u.resolve va access mode iprs = some (.ok pa) ↔ u.Grants va access mode iprs pa := by
  unfold resolve Grants
  by_cases hrange : InRange va
  · rw [← lookup_grants_iff hf, ← kernelSuperpage_eq_some_iff hrange,
      ← kernelSuperpage_eq_none_iff hrange, (isCanonical_iff_inRange va).mpr hrange]
    cases kernelSuperpage va access mode iprs <;> simp [hrange, eq_comm]
  · rw [Bool.eq_false_iff.mpr (mt (isCanonical_iff_inRange va).mp hrange)]
    simp [hrange]

theorem translate_eq_ok_iff :
    (u.translate va access mode iprs).1 = .ok pa ↔
      u.resolve va access mode iprs = some (.ok pa) := by
  rcases u.translate_cases va access mode iprs with ⟨answer, hr, ht⟩ | ⟨hr, ht⟩
  · rw [ht, hr, Option.some.injEq]
  · rw [ht, hr]
    exact iff_of_false (fun h => nomatch h) fun h => nomatch h

structure GrantsOnly (u : TranslationUnit) (va : Word) (access : AccessKind) (mode : ProcessorMode)
    (iprs : InternalRegisters) : Prop where
  peeked : ∀ pa, (u.translate va access mode iprs).1 = .ok pa ↔
    u.peek va access mode iprs = some pa
  granted : ∀ pa, (u.translate va access mode iprs).1 = .ok pa ↔ u.Grants va access mode iprs pa
  entries : ∀ s, (u.buffer s).SameEntries ((u.translate va access mode iprs).2.buffer s)
  answered : (∀ s : TranslationStream, s.missOf (u.translate va access mode iprs).1 = none) →
    (u.translate va access mode iprs).2 = u
  missed : ∀ (s : TranslationStream) va', s.missOf (u.translate va access mode iprs).1 = some va' →
    s = access.stream ∧ va' = va ∧ (u.translate va access mode iprs).2 =
      u.withBuffer { u.buffer s with pending := some ((u.buffer s).pending.getD va) } s

theorem grantsOnly (hf : u.FramesFit) (va : Word) (access : AccessKind) (mode : ProcessorMode)
    (iprs : InternalRegisters) : u.GrantsOnly va access mode iprs where
  peeked pa := by rw [translate_eq_ok_iff, peek_eq_some_iff]
  granted pa := by rw [translate_eq_ok_iff, resolve_eq_ok_iff hf]
  entries := u.sameEntries_translate va access mode iprs
  answered := translate_of_answered
  missed s va' hmiss := by
    obtain ⟨rfl, rfl, hrecorded⟩ := translate_of_missed hmiss
    exact ⟨rfl, rfl, hrecorded.trans (recordMiss_eq u _ access)⟩

end TranslationUnit

variable {π : Type} {start c : Core π} {past : List (TranslationMoment π)} {itb dtb : Nat}

theorem Core.TranslationRun.framesFit
    (hstart : TranslationUnit.build itb dtb = .ok start.translation)
    (hrun : start.TranslationRun past c) : c.translation.FramesFit := by
  intro s i e he
  obtain ⟨l, -, rfl⟩ := hrun.loaded hstart he
  exact l.frame_lt

theorem translation_grants (hstart : TranslationUnit.build itb dtb = .ok start.translation)
    (hrun : start.TranslationRun past c) (va : Word) (access : AccessKind) (mode : ProcessorMode)
    (iprs : InternalRegisters) : c.translation.GrantsOnly va access mode iprs :=
  TranslationUnit.grantsOnly (hrun.framesFit hstart) va access mode iprs

def oneEntryConfig : Config :=
  { kernelConfig with memory := { kernelConfig.memory with itbSize := 1, dtbSize := 1 } }

def wideLoad : PageLoad := ⟨0x10000, 0x0000001500000121, 0⟩

theorem wideLoad_granted :
    ∃ start past c, Core.ofConfig oneEntryConfig MemoryPort.sample = .ok start ∧
      start.TranslationRun past c ∧ past.map (·.event) = [.serve .data (.load wideLoad)] ∧
      c.translation.GrantsOnly 0x12345 .read .kernel .zero ∧
      (c.translation.translate 0x12345 .read .kernel .zero).1 = .ok 0x22345 ∧
      c.translation.Grants 0x12345 .read .kernel .zero 0x22345 := by
  have hcore : Core.ofConfig oneEntryConfig MemoryPort.sample = .ok _ := rfl
  refine ⟨_, _, _, hcore, .snoc .nil rfl, rfl, ?_⟩
  have hgrants := translation_grants (Core.fresh_ofConfig hcore).translation
    (.snoc .nil (Core.stepTranslation_load (s := .data) (by decide) wideLoad)) 0x12345 .read
    .kernel .zero
  exact ⟨hgrants, rfl, (hgrants.granted _).mp rfl⟩

end EV6
