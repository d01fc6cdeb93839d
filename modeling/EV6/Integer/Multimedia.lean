import EV6.Isa.Integer

namespace EV6

namespace Lanes

def lane (l : Lanes) (value : Word) (i : Nat) : Nat :=
  (value.toNat >>> (i * l.bits)) % (1 <<< l.bits)

def key (l : Lanes) (value : Word) (i : Nat) : Int :=
  if l.signed then (BitVec.ofNat l.bits (l.lane value i)).toInt else l.lane value i

def assemble (l : Lanes) (f : Nat → Nat) : Word :=
  (List.range l.count).foldl (fun acc i => acc ||| (BitVec.ofNat 64 (f i) <<< (i * l.bits))) 0

end Lanes

namespace Integer

def picksFirst : Extremum → Int → Int → Bool
  | .min, x, y => x ≤ y
  | .max, x, y => y ≤ x

def extremum (which : Extremum) (l : Lanes) (a b : Word) : Word :=
  l.assemble fun i =>
    if picksFirst which (l.key a i) (l.key b i) then l.lane a i else l.lane b i

def byteDistance (a b : Word) (i : Nat) : Nat :=
  let x := (Word.byteAt a i).toNat
  let y := (Word.byteAt b i).toNat
  (x - y) + (y - x)

def pixelError (a b : Word) : Word :=
  BitVec.ofNat 64 ((List.range 8).foldl (fun acc i => acc + byteDistance a b i) 0)

def packWords (b : Word) : Word :=
  (List.range 4).foldl (fun acc i => acc ||| (((b >>> (i * 16)) &&& 0xFF) <<< (i * 8))) 0

def unpackWords (b : Word) : Word :=
  (List.range 4).foldl (fun acc i => acc ||| (((b >>> (i * 8)) &&& 0xFF) <<< (i * 16))) 0

def packLongs (b : Word) : Word := (b &&& 0xFF) ||| ((b >>> 24) &&& 0xFF00)

def unpackLongs (b : Word) : Word := (b &&& 0xFF) ||| ((b &&& 0xFF00) <<< 24)

def multimedia (op : MultimediaOp) (a b : Word) : Word :=
  match op with
  | .extremum which l => extremum which l a b
  | .pixelError => pixelError a b
  | .packWords => packWords b
  | .packLongs => packLongs b
  | .unpackWords => unpackWords b
  | .unpackLongs => unpackLongs b

end Integer

end EV6
