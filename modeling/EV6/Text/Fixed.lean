import EV6.Float.Exact

namespace EV6.Fixed

def roundDiv (num den : Nat) : Nat :=
  let q := num / den
  let r := num % den
  if 2 * r < den || (2 * r == den && q % 2 == 0) then q else q + 1

def hundredths (x : Exact) : Nat :=
  roundDiv ((x.significand * 100) <<< x.exponent.toNat) (1 <<< (-x.exponent).toNat)

def twoPlaces (x : Exact) : String :=
  let h := hundredths x
  let cents := toString (h % 100)
  toString (h / 100) ++ "." ++ "".pushn '0' (2 - cents.length) ++ cents

def padRight (width : Nat) (s : String) : String := s.pushn ' ' (width - s.length)

end EV6.Fixed
