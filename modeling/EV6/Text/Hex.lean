import EV6.Word.Basic

namespace EV6.Hex

def digits (n : Nat) : String := String.ofList (Nat.toDigits 16 n)

def nat (n : Nat) : String := "0x" ++ digits n

def word (w : Word) : String := nat w.toNat

def fill (width : Nat) (s : String) : String :=
  "".pushn '0' (width - s.length) ++ s

def wide (w : Word) : String := "0x" ++ fill 16 (digits w.toNat)

def bytes (data : List (BitVec 8)) : String :=
  String.join (data.map fun b => fill 2 (digits b.toNat))

def digit? (c : Char) : Option Nat :=
  if '0' ≤ c ∧ c ≤ '9' then some (c.toNat - '0'.toNat)
  else if 'a' ≤ c ∧ c ≤ 'f' then some (c.toNat - 'a'.toNat + 10)
  else if 'A' ≤ c ∧ c ≤ 'F' then some (c.toNat - 'A'.toNat + 10)
  else none

def value (ds : List Char) : Nat := ds.foldl (fun n d => 16 * n + (digit? d).getD 0) 0

def readBytes : List Char → List (BitVec 8)
  | a :: b :: r => BitVec.ofNat 8 (value [a, b]) :: readBytes r
  | _ => []

end EV6.Hex
