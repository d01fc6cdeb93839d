import EV6.Isa.Integer
import EV6.Word.Address
/-!
Byte manipulation. The low three bits of the second operand, after the big-endian exchange for the
operation's width, give the offset of a field that may reach into the next quadword: the low forms
treat the part in this quadword, the high forms the part in the next.
-/

namespace EV6.Integer

def fieldOffset (b : Word) (w : Width) (bigEndian : Bool) : Nat :=
  (if bigEndian then Address.bigEndian b w else b).toNat % 8

def fieldLanes (w : Width) (offset : Nat) : BitVec 16 := w.lanes.setWidth 16 <<< offset

def lowLanes (w : Width) (offset : Nat) : BitVec 8 := (fieldLanes w offset).extractLsb' 0 8

def highLanes (w : Width) (offset : Nat) : BitVec 8 := (fieldLanes w offset).extractLsb' 8 8

def lowField (action : FieldAction) (w : Width) (a : Word) (offset : Nat) : Word :=
  match action with
  | .extract => (a >>> (8 * offset)) &&& w.mask
  | .insert => Word.zapNot (a <<< (8 * offset)) (lowLanes w offset)
  | .mask => Word.zap a (lowLanes w offset)

def highField (action : FieldAction) (w : Width) (a : Word) (offset : Nat) : Word :=
  match action with
  | .extract => (a <<< ((64 - 8 * offset) % 64)) &&& w.mask
  | .insert => if offset = 0 then 0 else Word.zapNot (a >>> (64 - 8 * offset)) (highLanes w offset)
  | .mask => Word.zap a (highLanes w offset)

def bytes (op : ByteOp) (a b : Word) (bigEndian : Bool) : Word :=
  match op with
  | .low action w => lowField action w a (fieldOffset b w bigEndian)
  | .high action w => highField action w.toWidth a (fieldOffset b w.toWidth bigEndian)
  | .zap => Word.zap a (b.setWidth 8)
  | .zapNot => Word.zapNot a (b.setWidth 8)
  | .signExtendByte => Word.signExtend b .byte
  | .signExtendWord => Word.signExtend b .word

end EV6.Integer
