import EV6.Integer.Bytes
import EV6.Proofs.Storage.Memory
import EV6.Proofs.Word.Lanes

namespace EV6

open Word

def Memory.quadAt (m : Memory) (a : Nat) : Word := ofBytes (m.bytes (a / 8 * 8) 8)

theorem Memory.byteAt_quadAt (m : Memory) (a : Nat) {j : Nat} (hj : j < 8) :
    (m.quadAt a).byteAt j = m (a / 8 * 8 + j) := by
  rw [quadAt, byteAt_ofBytes _ hj, getD_bytes hj]

theorem Memory.quadAt_congr (m : Memory) {a b : Nat} (h : a / 8 = b / 8) :
    m.quadAt a = m.quadAt b := by rw [quadAt, quadAt, h]

theorem Memory.write_of_ne {m : Memory} {a b : Nat} {data : List Byte}
    (hend : a % 8 + data.length ≤ 8) (hne : b / 8 ≠ a / 8) : m.write a data b = m b :=
  write_of_outside (by omega)

theorem Width.getLsbD_lanes (w : Width) (j : Nat) : w.lanes.getLsbD j = decide (j < w.bytes) := by
  by_cases hj : j < 8
  · have hall : ∀ j < 8, w.lanes.getLsbD j = decide (j < w.bytes) := by cases w <;> decide
    exact hall j hj
  · have hle := w.bytes_le_eight
    rw [BitVec.getLsbD_of_ge _ _ (Nat.le_of_not_lt hj), decide_eq_false (by omega)]

namespace Integer

variable {w : Width} {a offset j : Nat}

theorem getLsbD_lowLanes (w : Width) (offset : Nat) (hj : j < 8) :
    (lowLanes w offset).getLsbD j = decide (offset ≤ j ∧ j < offset + w.bytes) := by
  have hle := w.bytes_le_eight
  rw [lowLanes, fieldLanes, BitVec.getLsbD_extractLsb', BitVec.getLsbD_shiftLeft,
    BitVec.getLsbD_setWidth, w.getLsbD_lanes]
  by_cases hlow : offset ≤ j
  · have hiff : j - offset < w.bytes ↔ j < offset + w.bytes := by omega
    have hsub : j - offset < 16 := by omega
    have hnot : ¬j < offset := Nat.not_lt.mpr hlow
    have hfull : j < 16 := by omega
    simp [hj, hlow, hiff, hsub, hnot, hfull]
  · simp [hlow]

theorem lowField_extract (w : Width) (x : Word) (offset : Nat) :
    lowField .extract w x offset = zeroExtend (x >>> (8 * offset)) w := rfl

theorem extract_quadAt (m : Memory) (hend : a % 8 + w.bytes ≤ 8) :
    lowField .extract w (m.quadAt a) (a % 8) = ofBytes (m.bytes a w.bytes) := by
  refine eq_of_byteAt fun j hj => ?_
  rw [lowField_extract, byteAt_zeroExtend _ _ hj, byteAt_ushiftRight, byteAt_ofBytes _ hj]
  split
  · rename_i hlane
    rw [m.byteAt_quadAt a (by omega), Memory.getD_bytes hlane, ← Nat.add_assoc, Nat.div_add_mod']
  · rename_i hlane
    rw [List.getD_eq_getElem?_getD, List.getElem?_eq_none (by simpa using hlane)]
    rfl

theorem extract_quad (x : Word) : lowField .extract .quad x 0 = x := by
  refine eq_of_byteAt fun j hj => ?_
  rw [lowField_extract, byteAt_zeroExtend _ _ hj, byteAt_ushiftRight, Nat.zero_add]
  exact if_pos hj

theorem quadAt_write (m : Memory) (v : Word) :
    (m.write a (toBytes v w.bytes)).quadAt a =
      lowField .mask w (m.quadAt a) (a % 8) ||| lowField .insert w v (a % 8) := by
  refine eq_of_byteAt fun j hj => ?_
  have hbase := Nat.div_add_mod' a 8
  rw [Memory.byteAt_quadAt _ a hj, byteAt_or, lowField, lowField, byteAt_zap _ _ hj,
    byteAt_zapNot _ _ hj, byteAt_shiftLeft _ _ hj, getLsbD_lowLanes w _ hj, m.byteAt_quadAt a hj]
  rw [Memory.write_toBytes]
  by_cases hlane : a % 8 ≤ j ∧ j < a % 8 + w.bytes
  · have hinside : a ≤ a / 8 * 8 + j ∧ a / 8 * 8 + j < a + w.bytes := by omega
    have hplace : a / 8 * 8 + j - a = j - a % 8 := by omega
    simp [hlane, hinside, hplace]
  · have houtside : ¬(a ≤ a / 8 * 8 + j ∧ a / 8 * 8 + j < a + w.bytes) := by omega
    simp [hlane, houtside]

end Integer

end EV6
