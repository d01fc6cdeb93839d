import EV6.Text.Hex
/-!
Strict JSON text: no leading zeros, no trailing commas, no text after the value. A number written
with digits alone keeps its value. A string keeps its text unless an escape stands for half of a
surrogate pair.
-/

namespace EV6

inductive Json where
  | null
  | bool (b : Bool)
  | natural (n : Nat)
  | number
  | string (text : Option String)
  | array (elements : List Json)
  | object (members : List (Option String × Json))

namespace Json

def isBlank (c : Char) : Bool := c == ' ' || c == '\n' || c == '\t' || c == '\r'

def skipBlanks (cs : List Char) : List Char := cs.dropWhile isBlank

def unit? (a b c d : Char) : Option Nat := do
  return 4096 * (← Hex.digit? a) + 256 * (← Hex.digit? b) + 16 * (← Hex.digit? c) + (← Hex.digit? d)

def escape? : Char → Option Char
  | '"' => some '"'
  | '\\' => some '\\'
  | '/' => some '/'
  | 'b' => some '\x08'
  | 'f' => some '\x0c'
  | 'n' => some '\n'
  | 'r' => some '\r'
  | 't' => some '\t'
  | _ => none

/-- A piece of a string: a character, or a UTF-16 unit written as an escape. -/
inductive Piece where
  | char (c : Char)
  | unit (u : Nat)

def pieces : List Char → Option (List Piece × List Char)
  | [] => none
  | '"' :: r => some ([], r)
  | '\\' :: 'u' :: a :: b :: c :: d :: r => do
    let u ← unit? a b c d
    let (ps, r) ← pieces r
    return (.unit u :: ps, r)
  | '\\' :: e :: r => do
    let c ← escape? e
    let (ps, r) ← pieces r
    return (.char c :: ps, r)
  | c :: r =>
    if c.toNat < 0x20 || c == '\\' then none
    else do
      let (ps, r) ← pieces r
      return (.char c :: ps, r)

/-- The characters of the pieces, where every half of a surrogate pair has its other half. -/
def joinPieces : List Piece → Option (List Char)
  | [] => some []
  | .char c :: r => (joinPieces r).map (c :: ·)
  | .unit hi :: .unit lo :: r =>
    if 0xD800 ≤ hi ∧ hi < 0xDC00 then
      if 0xDC00 ≤ lo ∧ lo < 0xE000 then
        (joinPieces r).map (Char.ofNat (0x10000 + 0x400 * (hi - 0xD800) + (lo - 0xDC00)) :: ·)
      else none
    else if 0xDC00 ≤ hi ∧ hi < 0xE000 then none
    else (joinPieces (.unit lo :: r)).map (Char.ofNat hi :: ·)
  | .unit u :: r =>
    if 0xD800 ≤ u ∧ u < 0xE000 then none else (joinPieces r).map (Char.ofNat u :: ·)

def text? (cs : List Char) : Option (Option String × List Char) :=
  (pieces cs).map fun (ps, r) => ((joinPieces ps).map String.ofList, r)

def digits (cs : List Char) : List Char × List Char := cs.span Char.isDigit

def digitsValue (ds : List Char) : Nat := ds.foldl (fun n d => 10 * n + (d.toNat - '0'.toNat)) 0

def someDigits (cs : List Char) : Option (List Char) :=
  match digits cs with
  | ([], _) => none
  | (_, r) => some r

def fraction (cs : List Char) : Option (Bool × List Char) :=
  match cs with
  | '.' :: r => (someDigits r).map fun r => (true, r)
  | r => some (false, r)

def exponentDigits : List Char → Option (List Char)
  | '+' :: r => someDigits r
  | '-' :: r => someDigits r
  | r => someDigits r

def exponent (cs : List Char) : Option (Bool × List Char) :=
  match cs with
  | 'e' :: r | 'E' :: r => (exponentDigits r).map fun r => (true, r)
  | r => some (false, r)

def unsigned? (cs : List Char) : Option (Json × List Char) :=
  match digits cs with
  | ([], _) => none
  | (ds, r) =>
    if ds.head? == some '0' && 1 < ds.length then none
    else do
      let (hasFraction, r) ← fraction r
      let (hasExponent, r) ← exponent r
      return (if hasFraction || hasExponent then number else natural (digitsValue ds), r)

def number? (cs : List Char) : Option (Json × List Char) :=
  match cs with
  | '-' :: r => (unsigned? r).map fun (_, r) => (number, r)
  | r => unsigned? r

def word? (w : String) (v : Json) (cs : List Char) : Option (Json × List Char) :=
  if w.toList.isPrefixOf cs then some (v, cs.drop w.length) else none

mutual

/-- One value after any blanks. Each level of nesting takes two units of the bound. -/
def value : Nat → List Char → Option (Json × List Char)
  | 0, _ => none
  | bound + 1, cs =>
    match skipBlanks cs with
    | [] => none
    | '"' :: r => (text? r).map fun (t, r) => (string t, r)
    | '[' :: r =>
      match skipBlanks r with
      | ']' :: r => some (array [], r)
      | r => (elements bound r).map fun (xs, r) => (array xs, r)
    | '\x7b' :: r =>
      match skipBlanks r with
      | '\x7d' :: r => some (object [], r)
      | r => (members bound r).map fun (ms, r) => (object ms, r)
    | 'n' :: r => word? "null" null ('n' :: r)
    | 't' :: r => word? "true" (bool true) ('t' :: r)
    | 'f' :: r => word? "false" (bool false) ('f' :: r)
    | cs => number? cs

def elements : Nat → List Char → Option (List Json × List Char)
  | 0, _ => none
  | bound + 1, cs => do
    let (v, r) ← value bound cs
    match skipBlanks r with
    | ',' :: r => (elements bound r).map fun (vs, r) => (v :: vs, r)
    | ']' :: r => some ([v], r)
    | _ => none

def members : Nat → List Char → Option (List (Option String × Json) × List Char)
  | 0, _ => none
  | bound + 1, cs =>
    match skipBlanks cs with
    | '"' :: r => do
      let (key, r) ← text? r
      match skipBlanks r with
      | ':' :: r =>
        let (v, r) ← value bound r
        match skipBlanks r with
        | ',' :: r => (members bound r).map fun (ms, r) => ((key, v) :: ms, r)
        | '\x7d' :: r => some ([(key, v)], r)
        | _ => none
      | _ => none
    | _ => none

end

def parse? (s : String) : Option Json :=
  match value (2 * s.length + 2) s.toList with
  | some (v, r) => if (skipBlanks r).isEmpty then some v else none
  | none => none

/-- The fields of a record with the given field names, given as an object, in which a field may be
absent but not repeated, or as an array, in which trailing fields may be absent. -/
def fields? (names : List String) : Json → Option (List (Option Json))
  | object ms =>
    if ms.any (·.1.isNone) then none
    else
      names.mapM fun name =>
        match ms.filter (·.1 == some name) with
        | [] => some none
        | [(_, v)] => some (some v)
        | _ => none
  | array vs =>
    if vs.length ≤ names.length then some ((List.range names.length).map fun i => vs[i]?) else none
  | _ => none

def bool? : Json → Option Bool
  | bool b => some b
  | _ => none

def nat? (bits : Nat) : Json → Option Nat
  | natural n => if n < 1 <<< bits then some n else none
  | _ => none

def orElse {α : Type} (read : Json → Option α) (absent : α) : Option Json → Option α
  | none => some absent
  | some v => read v

end Json

end EV6
