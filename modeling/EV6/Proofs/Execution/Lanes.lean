import EV6.Proofs.Execution.Delivery
import EV6.Proofs.Integer.Lanes
/-!
The two ways to a field of a quadword. A load or a store of the field finds it by the address, whose
byte order is changed before translation; byte manipulation finds it in the whole quadword by the
second operand. In either byte order both find the same bytes.
-/

namespace EV6

open Address TranslationUnit

variable {w : Width}

def Word.inRegister (field : Word) : Width → Word
  | .long => field.signExtend .long
  | _ => field

namespace LoadOp

def ofWidth : Width → LoadOp
  | .byte => ldbu
  | .word => ldwu
  | .long => ldl
  | .quad => ldq

@[simp] theorem width_ofWidth (w : Width) : (ofWidth w).width = w := by cases w <;> rfl

@[simp] theorem aligns_ofWidth (w : Width) : (ofWidth w).aligns = false := by cases w <;> rfl

@[simp] theorem locks_ofWidth (w : Width) : (ofWidth w).locks = false := by cases w <;> rfl

theorem completion_ofWidth {bs : List Byte} (h : bs.length = w.bytes) :
    (ofWidth w).completion.apply (Word.ofBytes bs) = .int ((Word.ofBytes bs).inRegister w) := by
  cases w with
  | byte => exact congrArg RegisterValue.int (Word.zeroExtend_ofBytes (w := .byte) h)
  | word => exact congrArg RegisterValue.int (Word.zeroExtend_ofBytes (w := .word) h)
  | long => rfl
  | quad => rfl

end LoadOp

namespace StoreOp

def ofWidth : Width → StoreOp
  | .byte => stb
  | .word => stw
  | .long => stl
  | .quad => stq

@[simp] theorem width_ofWidth (w : Width) : (ofWidth w).width = w := by cases w <;> rfl

@[simp] theorem aligns_ofWidth (w : Width) : (ofWidth w).aligns = false := by cases w <;> rfl

@[simp] theorem conditional_ofWidth (w : Width) : (ofWidth w).conditional = false := by
  cases w <;> rfl

@[simp] theorem image_ofWidth (w : Width) (data : Word) : (ofWidth w).image data = data := by
  cases w <;> rfl

theorem stores_ofWidth (w : Width) : (Mnemonic.store (ofWidth w)).stores = true := by
  cases w <;> rfl

end StoreOp

variable {π : Type} {content : π → Memory} {ok : π → Prop} {answers : Word → Nat → Prop}
  {mem : Memory} {config : Config} {port : π}

def MemoryHierarchy.ServesQuad (answers : Word → Nat → Prop) (h : MemoryHierarchy π) (pa : Word) :
    Prop :=
  ∀ (start : Word) (width : Width), start.toNat / 8 = pa.toNat / 8 →
    start.toNat % 8 + width.bytes ≤ 8 → h.Served answers start width.bytes

namespace Core

open Execution

variable {c : Core π} {i : Instruction} {va va' pa : Word}

def seen (c : Core π) (mem : Memory) (i : Instruction) : Memory :=
  mem.after ((c.mbox.stores.entries.filter (·.seq < i.seq)).map StoreEntry.toWrite)

theorem effectiveAddress_lane (c : Core π) (i : Instruction) (w : Width) :
    (begun c i).effectiveAddress w false = lane (address i) w c.bigEndian := rfl

theorem effectiveAddress_quadAligned (c : Core π) (i : Instruction) (w : Width) :
    (begun c i).effectiveAddress w true = quadAligned (address i) := rfl

variable [BlockDevice π]

theorem execute_bytes {op : ByteOp} (hi : i.mnemonic = .integer (.bytes op)) :
    ∃ e, c.execute i = .done () e ∧
      e.instruction.dest = .int (Integer.bytes op i.a i.b c.bigEndian) := by
  rw [execute_eq, hi]
  exact ⟨_, rfl, rfl⟩

theorem load_field (hd : FlatDevice content ok answers) (hv : config.Valid)
    (hc : c.Intact ok config) (hm : c.memory.Shows content ok mem) {op : LoadOp}
    (hop : op.locks = false) (hi : i.mnemonic = .load op)
    (hp : c.translation.peek va .read c.mode c.iprs = some pa) (hcan : c.mbox.CanLoad config)
    (hserved : c.memory.ServesQuad answers pa)
    (heffective : (begun c i).effectiveAddress op.width op.aligns = va')
    (hsame : SameAbove 3 va va') (ha : isAligned va' op.width = true) :
    ∃ bs : List Byte, bs.length = op.width.bytes ∧
      Integer.lowField .extract op.width ((c.seen mem i).quadAt pa.toNat) (va'.toNat % 8) =
        Word.ofBytes bs ∧
      Gets (c.execute i) (op.completion.apply (Word.ofBytes bs)) := by
  obtain ⟨pa', hp', hfield⟩ := hc.translation.peek_field hsame ha hp
  obtain ⟨es, hholds, -⟩ := hc.mbox.stores
  have htranslates := hfield.translates
  have hread : CanRead answers c ((begun c i).effectiveAddress op.width op.aligns) pa' op.width :=
    { aligned := heffective ▸ ha
      mapped := heffective ▸ hp'
      translates := heffective ▸ htranslates
      fits := hc.mbox.loadFits hd.sized hv hcan (htranslates.aligned ha) (htranslates.reach _)
      served := hserved pa' op.width hfield.quad hfield.fits }
  refine ⟨(c.seen mem i).bytes pa'.toNat op.width.bytes, Memory.length_bytes _ _ _, ?_, ?_⟩
  · rw [← Integer.extract_quadAt _ hfield.fits, hfield.place, Memory.quadAt_congr _ hfield.quad]
  · have hgets := load_gets hd hm hholds.toHolds hop hi hread
    rw [Mbox.olderValue, ← hholds.entries] at hgets
    exact hgets

structure FieldWritten (w : Width) (v va pa : Word) (isBigEndian : Bool) (old new : Memory) :
    Prop where
  quad : new.quadAt pa.toNat =
    Integer.bytes (.low .mask w) (old.quadAt pa.toNat) va isBigEndian |||
      Integer.bytes (.low .insert w) v va isBigEndian
  others : ∀ a, a / 8 ≠ pa.toNat / 8 → new a = old a

omit [BlockDevice π] in
theorem fieldWritten_write {pa' : Word} {isBigEndian : Bool}
    (hfield : FieldAt w pa (lane va w isBigEndian) pa') (v : Word) (old : Memory) :
    FieldWritten w v va pa isBigEndian old (old.write pa'.toNat (Word.toBytes v w.bytes)) where
  quad := by
    rw [← Memory.quadAt_congr _ hfield.quad, ← Memory.quadAt_congr old hfield.quad,
      Integer.quadAt_write, hfield.place]
    rfl
  others a hne := by
    have hfits := hfield.fits
    rw [← Word.length_toBytes v w.bytes] at hfits
    exact Memory.write_of_ne hfits (hfield.quad ▸ hne)

theorem retire_field (hd : FlatDevice content ok answers) {d : Core π} {pa' v : Word}
    {isBigEndian : Bool} (hfield : FieldAt w pa (lane va w isBigEndian) pa')
    (hi : i.mnemonic = .store (.ofWidth w)) (hstate : i.state = .waitingRetirement) {seq : Nat}
    {rest : List StoreEntry} {old : Memory}
    (hretire : CanRetire content ok answers old d.mbox i
      ⟨seq, lane va w isBigEndian, pa', v.zeroExtend w, w⟩ rest) :
    ∃ t new, d.retire i = .done () t ∧ t.core.mbox.stores.Holds rest ∧
      t.core.memory.Shows content ok new ∧ FieldWritten w v va pa isBigEndian old new := by
  have hstores : i.mnemonic.stores = true := by rw [hi, StoreOp.stores_ofWidth]
  have hready : i.isReady = true := by
    rw [Instruction.isReady, hstate, hi]
    rfl
  obtain ⟨t, hretired, hwritten⟩ :=
    retire_writes hd hstores hready hretire (hfield.translates.aligned hfield.aligned)
  refine ⟨t, _, hretired, hwritten.holds, hwritten.memory, ?_⟩
  rw [StoreEntry.bytes, Word.toBytes_zeroExtend]
  exact fieldWritten_write hfield v old

structure FieldQueued (content : π → Memory) (ok : π → Prop) (answers : Word → Nat → Prop)
    (w : Width) (v va pa : Word) (c : Core π) (e : Execution π) (entry : StoreEntry) : Prop where
  memory : e.core.memory = c.memory
  holds : e.core.mbox.stores.Holds (c.mbox.stores.entries ++ [entry])
  oldest : c.mbox.stores.entries = [] → e.instruction.slot = some e.core.mbox.stores.head
  retires {d : Core π} {rest : List StoreEntry} {old : Memory}
    (hshows : d.memory.Shows content ok old) (hholds : d.mbox.stores.Holds (entry :: rest))
    (hslot : e.instruction.slot = some d.mbox.stores.head)
    (hserved : d.memory.ServesQuad answers pa) :
    ∃ t new, d.retire e.instruction = .done () t ∧ t.core.mbox.stores.Holds rest ∧
      t.core.memory.Shows content ok new ∧ FieldWritten w v va pa c.bigEndian old new

theorem store_field (hd : FlatDevice content ok answers) (hc : c.Intact ok config)
    (ha : isAligned va w = true) (hi : i.mnemonic = .store (.ofWidth w)) (hva : address i = va)
    (hp : c.translation.peek va .write c.mode c.iprs = some pa) (hroom : StoreRoom c.mbox) :
    ∃ e entry, c.execute i = .done () e ∧ FieldQueued content ok answers w i.b va pa c e entry := by
  have haligned := (isAligned_lane va w c.bigEndian).trans ha
  obtain ⟨pa', hp', hfield⟩ :=
    hc.translation.peek_field (sameAbove_lane va w c.bigEndian) haligned hp
  obtain ⟨es, hholds, -⟩ := hc.mbox.stores
  have heffective : (begun c i).effectiveAddress (StoreOp.ofWidth w).width
      (StoreOp.ofWidth w).aligns = lane va w c.bigEndian := by
    rw [StoreOp.width_ofWidth, StoreOp.aligns_ofWidth, effectiveAddress_lane, hva]
  have hwrite : CanWrite c ((begun c i).effectiveAddress (StoreOp.ofWidth w).width
      (StoreOp.ofWidth w).aligns) pa' (StoreOp.ofWidth w).width := by
    rw [heffective, StoreOp.width_ofWidth]
    exact ⟨haligned, hp', hroom⟩
  obtain ⟨e, stores, hdone, hcore, hmnemonic, hstate, hslot, hhead, hqueued⟩ :=
    store_queues hholds.toHolds (StoreOp.conditional_ofWidth w) hi hwrite
  rw [heffective, StoreOp.width_ofWidth, StoreOp.image_ofWidth] at hqueued
  refine ⟨e, ⟨i.seq, lane va w c.bigEndian, pa', i.b.zeroExtend w, w⟩, hdone, ?_⟩
  exact
    { memory := by
        rw [hcore]
        rfl
      holds := by
        rw [hcore, hholds.entries]
        exact hqueued
      oldest := by
        intro hnone
        rw [hslot, hcore, hhead, hholds.head, hholds.tail, ← hholds.entries, hnone]
        rfl
      retires := by
        intro d rest old hshows hqueue hoff hserved
        exact retire_field hd hfield (hmnemonic.trans hi) hstate
          ⟨hshows, hqueue, hoff, hserved pa' w hfield.quad hfield.fits⟩ }

theorem byteLanes_agree (hd : FlatDevice content ok answers) (hport : ok port)
    (hr : Reachable config port c) (hm : c.memory.Shows content ok mem) {va : Word} {w : Width}
    (ha : isAligned va w = true) :
    (∀ op x, x.mnemonic = .integer (.bytes op) → ∃ e, c.execute x = .done () e ∧
      e.instruction.dest = .int (Integer.bytes op x.a x.b c.bigEndian)) ∧
    (∀ i q pa, i.mnemonic = .load (.ofWidth w) → q.mnemonic = .load .ldqU →
      address i = va → address q = va → c.seen mem i = c.seen mem q →
      c.translation.peek va .read c.mode c.iprs = some pa → c.mbox.CanLoad config →
      c.memory.ServesQuad answers pa →
      ∃ quad, quad = (c.seen mem q).quadAt pa.toNat ∧ Gets (c.execute q) (.int quad) ∧
        Gets (c.execute i)
          (.int ((Integer.bytes (.low .extract w) quad va c.bigEndian).inRegister w))) ∧
    ∀ i pa, i.mnemonic = .store (.ofWidth w) → address i = va →
      c.translation.peek va .write c.mode c.iprs = some pa → StoreRoom c.mbox →
      ∃ e entry, c.execute i = .done () e ∧
        FieldQueued content ok answers w i.b va pa c e entry := by
  obtain ⟨hv, hc⟩ := hr.intact hd.sized hport
  refine ⟨fun _ _ => execute_bytes, ?_, fun i pa hi hva => store_field hd hc ha hi hva⟩
  intro i q pa hi hq hva hvaq hseen hp hcan hserved
  have hquadEffective : (begun c q).effectiveAddress LoadOp.ldqU.width LoadOp.ldqU.aligns =
      quadAligned va := hvaq ▸ effectiveAddress_quadAligned c q .quad
  have hplain : LoadOp.ldqU.locks = false := rfl
  obtain ⟨bs, -, hfield, hgetsQuad⟩ := load_field hd hv hc hm hplain hq hp hcan hserved
    hquadEffective (sameAbove_quadAligned va) (isAligned_quadAligned va)
  have hfirst : (quadAligned va).toNat % 8 = 0 :=
    (isAligned_iff _ .quad).mp (isAligned_quadAligned va)
  have hwhole : (c.seen mem q).quadAt pa.toNat = Word.ofBytes bs := by
    rw [← hfield, hfirst]
    exact (Integer.extract_quad _).symm
  have hlaneEffective : (begun c i).effectiveAddress (LoadOp.ofWidth w).width
      (LoadOp.ofWidth w).aligns = lane va w c.bigEndian := by
    rw [LoadOp.width_ofWidth, LoadOp.aligns_ofWidth, effectiveAddress_lane, hva]
  have hlaneAligned : isAligned (lane va w c.bigEndian) (LoadOp.ofWidth w).width = true := by
    rw [LoadOp.width_ofWidth, isAligned_lane, ha]
  obtain ⟨cs, hlength, hextract, hgets⟩ := load_field hd hv hc hm (LoadOp.locks_ofWidth w) hi hp
    hcan hserved hlaneEffective (sameAbove_lane va w c.bigEndian) hlaneAligned
  refine ⟨_, rfl, hwhole ▸ hgetsQuad, ?_⟩
  rw [LoadOp.width_ofWidth] at hlength hextract
  rw [LoadOp.completion_ofWidth hlength, ← hextract, hseen] at hgets
  exact hgets

omit [BlockDevice π] in
theorem servesQuad_of_inside {h : MemoryHierarchy π} (hs : h.Sound ok) (hn : ∀ n, h.copy n = none)
    {size : Nat} (hsize : h.lineBytes ∣ size) (hpa : pa.toNat < size) (hquad : 8 ∣ size) :
    h.ServesQuad (Ram.Inside 0 size) pa := by
  intro start width hstart hend
  have hlt : start.toNat < size := by omega
  refine ⟨⟨Nat.zero_le _, ?_⟩, ⟨Nat.zero_le _, ?_⟩, ?_⟩
  · rw [hs.lineSize.toNat_lineBase]
    obtain ⟨k, rfl⟩ := hsize
    have hline : start.toNat / h.lineBytes < k := Nat.div_lt_of_lt_mul hlt
    have hend := Nat.mul_le_mul_right h.lineBytes hline
    rw [Nat.succ_mul, Nat.mul_comm k] at hend
    exact Nat.le_trans hend (Nat.le_add_left _ _)
  · change _ ≤ 0 + size
    omega
  · intro n l hl
    rw [hn] at hl
    cases hl

def bigEndianConfig : Config :=
  { Config.stock with
    general := { Config.stock.general with bigEndian := true }
    memory := { Config.stock.memory with superpageEnable := 7 } }

def laneAccess (m : Mnemonic) (second : Word) : Instruction :=
  { Instruction.ofMnemonic m 1 with
    first := .int 0xFFFF800000000103, second := .register (.int second) }

theorem bigEndianByte_agrees :
    ∃ core : Core MemoryPort, ofConfig bigEndianConfig MemoryPort.sample = .ok core ∧
      core.bigEndian = true ∧
      (∃ quad, Gets (core.execute (laneAccess (.load .ldqU) 0)) (.int quad) ∧
        Gets (core.execute (laneAccess (.load .ldbu) 0))
          (.int (Integer.bytes (.low .extract .byte) quad 0xFFFF800000000103 true))) ∧
      ∃ e t new, core.execute (laneAccess (.store .stb) 0xAB) = .done () e ∧
        e.core.retire e.instruction = .done () t ∧
        t.core.memory.Shows MemoryPort.content (MemoryPort.Open 0 8192) new ∧
        new.quadAt 0x103 = 0xAB00000000 := by
  obtain ⟨core, hcore⟩ : ∃ core, ofConfig bigEndianConfig MemoryPort.sample = .ok core := ⟨_, rfl⟩
  have hfresh := fresh_ofConfig hcore
  have hmemory : MemoryHierarchy.ofConfig bigEndianConfig MemoryPort.sample = .ok core.memory :=
    (Mbox.fresh_ofConfig hfresh.mbox).memory
  obtain ⟨hsound, hlines, hport, hempty⟩ :=
    MemoryHierarchy.ofConfig_spec hfresh.valid hmemory MemoryPort.open_sample
  have hshows : core.memory.Shows MemoryPort.content (MemoryPort.Open 0 8192) _ :=
    MemoryHierarchy.shows_of_empty hsound hempty
  rw [hport] at hshows
  have hserved : core.memory.ServesQuad (Ram.Inside 0 8192) 0x103 :=
    servesQuad_of_inside hsound hempty (by rw [hlines]; decide) (by decide) (by decide)
  have haligned : isAligned 0xFFFF800000000103 .byte = true := by decide
  obtain ⟨-, hloads, hstores⟩ := byteLanes_agree (MemoryPort.flat_of_open 0 8192)
    MemoryPort.open_sample (Reachable.start hcore) hshows haligned
  have hreset : core.bigEndian = true ∧ core.mbox.stores.entries = [] ∧
      core.translation.peek 0xFFFF800000000103 .read core.mode core.iprs = some 0x103 ∧
      core.translation.peek 0xFFFF800000000103 .write core.mode core.iprs = some 0x103 ∧
      core.mbox.CanLoad bigEndianConfig ∧ StoreRoom core.mbox := by
    cases hcore
    exact ⟨rfl, rfl, by decide, by decide, ⟨⟨0, rfl⟩, by decide⟩, rfl⟩
  obtain ⟨hbig, hnone, hread, hwrite, hcan, hroom⟩ := hreset
  rw [hbig] at hloads
  obtain ⟨quad, -, hquad, hfield⟩ := hloads (laneAccess (.load .ldbu) 0)
    (laneAccess (.load .ldqU) 0) 0x103 rfl rfl rfl rfl rfl hread hcan hserved
  obtain ⟨e, entry, hdone, hqueued⟩ := hstores (laneAccess (.store .stb) 0xAB) 0x103 rfl rfl hwrite
    hroom
  have hholds := hqueued.holds
  rw [hnone] at hholds
  obtain ⟨t, new, hretired, -, hnew, hwritten⟩ := hqueued.retires (hqueued.memory ▸ hshows) hholds
    (hqueued.oldest hnone) (hqueued.memory ▸ hserved)
  refine ⟨core, hcore, hbig, ⟨quad, hquad, hfield⟩, e, t, new, hdone, hretired, hnew, ?_⟩
  have hfieldQuad := hwritten.quad
  rw [hbig] at hfieldQuad
  rw [show (0x103 : Nat) = (0x103 : Word).toNat from rfl, hfieldQuad]
  decide

end Core

end EV6
