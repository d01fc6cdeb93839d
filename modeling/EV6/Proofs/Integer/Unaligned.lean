import EV6.Proofs.Integer.Lanes
/-!
Fields that may cross into the next quadword. The low operations treat what is of a field in the
quadword of its first byte, the high operations what is of it in the quadword of its last byte, and
nothing if that is the same quadword.
-/

namespace EV6

open Word

theorem Word.byteAt_of_ge {x : Word} {j : Nat} (h : 8 ≤ j) : x.byteAt j = 0#8 :=
  byteAt_eq_zero fun _ _ => BitVec.getLsbD_of_ge _ _ (by omega)

namespace Memory

variable {a c : Nat}

def putQuad (m : Memory) (a : Nat) (x : Word) : Memory := m.write (a / 8 * 8) (toBytes x 8)

theorem putQuad_quadAt (m m' : Memory) (h : c / 8 = a / 8) :
    m.putQuad a (m'.quadAt a) c = m' c := by
  have hplace : a / 8 * 8 + (c - a / 8 * 8) = c := by omega
  rw [putQuad, write_toBytes, if_pos (by omega), byteAt_quadAt _ _ (by omega), hplace]

theorem putQuad_of_ne (m : Memory) (x : Word) (h : c / 8 ≠ a / 8) : m.putQuad a x c = m c := by
  rw [putQuad, write_toBytes, if_neg (by omega)]

end Memory

namespace Integer

variable {offset j : Nat}

def loaded (w : HighWidth) (low high b : Word) : Word :=
  bytes (.low .extract w.toWidth) low b false ||| bytes (.high .extract w) high b false

def storedLow (w : HighWidth) (low v b : Word) : Word :=
  bytes (.low .mask w.toWidth) low b false ||| bytes (.low .insert w.toWidth) v b false

def storedHigh (w : HighWidth) (high v b : Word) : Word :=
  bytes (.high .mask w) high b false ||| bytes (.high .insert w) v b false

theorem getLsbD_highLanes (w : Width) (hoffset : offset < 8) (hj : j < 8) :
    (highLanes w offset).getLsbD j = decide (8 + j < offset + w.bytes) := by
  have hiff : 8 + j - offset < w.bytes ↔ 8 + j < offset + w.bytes := by omega
  have hfull : 8 + j < 16 := by omega
  have hsub : 8 + j - offset < 16 := by omega
  have hnot : ¬8 + j < offset := by omega
  rw [highLanes, fieldLanes, BitVec.getLsbD_extractLsb', BitVec.getLsbD_shiftLeft,
    BitVec.getLsbD_setWidth, w.getLsbD_lanes]
  simp [hj, hfull, hsub, hnot, hiff]

theorem byteAt_low_extract (w : Width) (x : Word) (offset : Nat) (hj : j < 8) :
    (lowField .extract w x offset).byteAt j =
      if j < w.bytes then x.byteAt (offset + j) else 0#8 := by
  rw [lowField_extract, byteAt_zeroExtend _ _ hj, byteAt_ushiftRight]

theorem highField_extract (w : Width) (x : Word) (hoffset : offset < 8) :
    highField .extract w x offset = zeroExtend (x <<< (8 * ((8 - offset) % 8))) w := by
  have hshift : (64 - 8 * offset) % 64 = 8 * ((8 - offset) % 8) := by omega
  rw [highField, hshift]
  rfl

theorem byteAt_high_extract (w : Width) (x : Word) (hoffset : offset < 8) (hj : j < 8) :
    (highField .extract w x offset).byteAt j =
      if j < w.bytes then
        if (8 - offset) % 8 ≤ j then x.byteAt (j - (8 - offset) % 8) else 0#8
      else 0#8 := by
  rw [highField_extract w x hoffset, byteAt_zeroExtend _ _ hj, byteAt_shiftLeft _ _ hj]

theorem byteAt_high_insert (w : Width) (v : Word) (hoffset : offset < 8) (hj : j < 8) :
    (highField .insert w v offset).byteAt j =
      if 8 + j < offset + w.bytes then v.byteAt (8 + j - offset) else 0#8 := by
  have hle := w.bytes_le_eight
  rw [highField]
  split
  · rename_i hzero
    rw [byteAt_zero, if_neg (by omega)]
  · have hshift : 64 - 8 * offset = 8 * (8 - offset) := by omega
    have hplace : 8 - offset + j = 8 + j - offset := by omega
    rw [byteAt_zapNot _ _ hj, getLsbD_highLanes w hoffset hj, hshift, byteAt_ushiftRight, hplace]
    simp only [decide_eq_true_eq]

theorem quadAt_write_high (m : Memory) (w : Width) (v : Word) (a : Nat) :
    (m.write a (toBytes v w.bytes)).quadAt (a + 8) =
      highField .mask w (m.quadAt (a + 8)) (a % 8) ||| highField .insert w v (a % 8) := by
  have hoffset : a % 8 < 8 := Nat.mod_lt _ (by decide)
  have hbase := Nat.div_add_mod' a 8
  have hnext : (a + 8) / 8 * 8 = a / 8 * 8 + 8 := by omega
  refine eq_of_byteAt fun j hj => ?_
  rw [Memory.byteAt_quadAt _ _ hj, byteAt_or, byteAt_high_insert w v hoffset hj, highField,
    byteAt_zap _ _ hj, getLsbD_highLanes w hoffset hj, Memory.byteAt_quadAt _ _ hj, hnext]
  rw [Memory.write_toBytes]
  by_cases hlane : 8 + j < a % 8 + w.bytes
  · have hinside : a ≤ a / 8 * 8 + 8 + j ∧ a / 8 * 8 + 8 + j < a + w.bytes := by omega
    have hplace : a / 8 * 8 + 8 + j - a = 8 + j - a % 8 := by omega
    simp [hlane, hinside, hplace]
  · have houtside : ¬(a ≤ a / 8 * 8 + 8 + j ∧ a / 8 * 8 + 8 + j < a + w.bytes) := by omega
    simp [hlane, houtside]

theorem extracted_lane (m : Memory) {w : Width} {a last : Nat} (hlast : last = a + w.bytes - 1)
    (hlane : j < w.bytes) (hj : j < 8) :
    (m.quadAt a).byteAt (a % 8 + j) |||
        (if (8 - a % 8) % 8 ≤ j then (m.quadAt last).byteAt (j - (8 - a % 8) % 8) else 0#8) =
      m (a + j) := by
  have hle := w.bytes_le_eight
  have hbase := Nat.div_add_mod' a 8
  rcases Nat.lt_or_ge (a % 8 + j) 8 with hsame | hcross
  · have hlow : (m.quadAt a).byteAt (a % 8 + j) = m (a + j) := by
      rw [m.byteAt_quadAt a hsame, ← Nat.add_assoc, hbase]
    rw [hlow]
    split
    · have hzero : (8 - a % 8) % 8 = 0 := by omega
      have hquad : last / 8 = a / 8 := by omega
      have hplace : a / 8 * 8 + j = a + j := by omega
      rw [hzero, Nat.sub_zero, m.quadAt_congr hquad, m.byteAt_quadAt a hj, hplace, BitVec.or_self]
    · exact BitVec.or_zero
  · have hhigh : (8 - a % 8) % 8 = 8 - a % 8 := by omega
    have hplace : last / 8 * 8 + (j - (8 - a % 8)) = a + j := by omega
    rw [byteAt_of_ge hcross, BitVec.zero_or, hhigh, if_pos (by omega),
      m.byteAt_quadAt last (by omega), hplace]

theorem loaded_eq (m : Memory) (w : HighWidth) {a : Nat} {b : Word} (hb : b.toNat % 8 = a % 8) :
    loaded w (m.quadAt a) (m.quadAt (a + w.toWidth.bytes - 1)) b =
      ofBytes (m.bytes a w.toWidth.bytes) := by
  have hoffset : a % 8 < 8 := Nat.mod_lt _ (by decide)
  have hlow : fieldOffset b w.toWidth false = a % 8 := hb
  refine eq_of_byteAt fun j hj => ?_
  rw [loaded, bytes, bytes, hlow, byteAt_or, byteAt_low_extract _ _ _ hj,
    byteAt_high_extract _ _ hoffset hj, byteAt_ofBytes _ hj]
  split
  · rename_i hlane
    rw [Memory.getD_bytes hlane, extracted_lane m rfl hlane hj]
  · rename_i hlane
    rw [List.getD_eq_getElem?_getD, List.getElem?_eq_none (by simpa using hlane), BitVec.or_zero]
    rfl

section Store

variable (m : Memory) (w : HighWidth) (v : Word) {a last : Nat} {b : Word}

theorem storedLow_eq (hb : b.toNat % 8 = a % 8) :
    storedLow w (m.quadAt a) v b = (m.write a (toBytes v w.toWidth.bytes)).quadAt a := by
  have hoffset : fieldOffset b w.toWidth false = a % 8 := hb
  rw [storedLow, bytes, bytes, hoffset, quadAt_write]

theorem storedHigh_eq (hb : b.toNat % 8 = a % 8) (hlast : last / 8 = (a + 8) / 8) :
    storedHigh w (m.quadAt last) v b = (m.write a (toBytes v w.toWidth.bytes)).quadAt last := by
  have hoffset : fieldOffset b w.toWidth false = a % 8 := hb
  rw [storedHigh, bytes, bytes, hoffset, Memory.quadAt_congr _ hlast, Memory.quadAt_congr _ hlast,
    quadAt_write_high]

theorem stored_eq (hb : b.toNat % 8 = a % 8) (hlast : last = a + w.toWidth.bytes - 1) :
    (m.putQuad last (storedHigh w (m.quadAt last) v b)).putQuad a (storedLow w (m.quadAt a) v b) =
      m.write a (toBytes v w.toWidth.bytes) := by
  have hpos := w.toWidth.bytes_pos
  have hle := w.toWidth.bytes_le_eight
  funext c
  by_cases hlow : c / 8 = a / 8
  · rw [storedLow_eq m w v hb, Memory.putQuad_quadAt _ _ hlow]
  rw [Memory.putQuad_of_ne _ _ hlow]
  by_cases hhigh : c / 8 = last / 8
  · -- the field crosses, so that its last byte is in the next quadword
    have hnext : last / 8 = (a + 8) / 8 := by omega
    rw [storedHigh_eq m w v hb hnext, Memory.putQuad_quadAt _ _ hhigh]
  · rw [Memory.putQuad_of_ne _ _ hhigh, Memory.write_toBytes, if_neg (by omega)]

end Store

theorem unaligned_field_accessed (m : Memory) (q : Nat) (w : HighWidth) (v b : Word) :
    let first := 8 * q + b.toNat % 8
    let last := first + w.toWidth.bytes - 1
    loaded w (m.quadAt first) (m.quadAt last) b = ofBytes (m.bytes first w.toWidth.bytes) ∧
      (m.putQuad last (storedHigh w (m.quadAt last) v b)).putQuad first
          (storedLow w (m.quadAt first) v b) =
        m.write first (toBytes v w.toWidth.bytes) := by
  intro first last
  have hb : b.toNat % 8 = first % 8 := by omega
  exact ⟨loaded_eq m w hb, stored_eq m w v hb rfl⟩

example : loaded .quad 0xEEDDCCBBAA000000 0x332211 3 = 0x332211EEDDCCBBAA := by decide

end Integer

end EV6
