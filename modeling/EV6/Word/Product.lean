import EV6.Word.Basic

namespace EV6.Word

structure WideProduct where
  low : Word
  high : Word
  deriving DecidableEq, Repr

def lowHalf (a : Word) : Word := a &&& 0xFFFFFFFF

def highHalf (a : Word) : Word := a >>> 32

def carry (sum addend : Word) : Word := ofBool (decide (sum < addend))

def wideProduct (a b : Word) : WideProduct :=
  let lowLow := lowHalf a * lowHalf b
  let lowHigh := lowHalf a * highHalf b
  let highLow := highHalf a * lowHalf b
  let highHigh := highHalf a * highHalf b
  let middle := lowLow + lowHigh <<< 32
  let low := middle + highLow <<< 32
  { low
    high := highHigh + lowHigh >>> 32 + highLow >>> 32
      + carry middle (lowHigh <<< 32) + carry low (highLow <<< 32) }

structure SignedProduct where
  low : Word
  overflow : Bool
  deriving DecidableEq, Repr

def WideProduct.signed (p : WideProduct) (a b : Word) : SignedProduct :=
  let high := p.high - (if a.msb then b else 0) - (if b.msb then a else 0)
  { low := p.low, overflow := high != (if p.low.msb then BitVec.allOnes 64 else 0) }

def signedProduct (a b : Word) : SignedProduct := (wideProduct a b).signed a b

def addOverflows (a b result : Word) : Bool := a.msb == b.msb && a.msb != result.msb

def subOverflows (a b result : Word) : Bool := a.msb != b.msb && a.msb != result.msb

end EV6.Word
