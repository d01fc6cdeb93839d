import EV6.Word.Basic

namespace EV6

abbrev Byte := BitVec 8

namespace Word

def toBytes (value : Word) (n : Nat) : List Byte := (List.range n).map (byteAt value)

@[simp] theorem length_toBytes (value : Word) (n : Nat) : (toBytes value n).length = n := by
  simp [toBytes]

/-- The quadword whose lowest bytes these are, the first lowest. -/
def ofBytes (bs : List Byte) : Word :=
  bs.foldr (fun b acc => (acc <<< 8) ||| b.setWidth 64) 0

end Word

namespace Block

def slice (block : List Byte) (offset length : Nat) : List Byte :=
  (block.drop offset).take length

theorem length_slice {block : List Byte} {offset length : Nat}
    (h : offset + length ≤ block.length) :
    (slice block offset length).length = length := by
  simp [slice]
  omega

def splice (block : List Byte) (offset : Nat) (data : List Byte) : List Byte :=
  block.take offset ++ data ++ block.drop (offset + data.length)

theorem length_splice {block data : List Byte} {offset : Nat}
    (h : offset + data.length ≤ block.length) :
    (splice block offset data).length = block.length := by
  simp [splice]
  omega

end Block

end EV6
