import EV6.Fault.Breach
import EV6.Float.Exact
/-!
The exact operations in bounded machine words, exponents of 32 bits and significands of 128: where a
number on the way does not fit, the operation stops, and otherwise its result is the exact one.
-/

namespace EV6

namespace Exponent

def fit (op : MachineOperation) (e : Int) : Except Breach Int :=
  if -0x80000000 ≤ e && e < 0x80000000 then .ok e else .error (.overflow op)

def add (a b : Int) : Except Breach Int := fit .add (a + b)

def sub (a b : Int) : Except Breach Int := fit .subtract (a - b)

def neg (a : Int) : Except Breach Int := fit .negate (-a)

theorem fit_eq_ok_iff {op : MachineOperation} {e f : Int} :
    fit op e = .ok f ↔ e = f ∧ -0x80000000 ≤ f ∧ f < 0x80000000 := by
  unfold fit
  split <;> simp_all <;> omega

end Exponent

namespace Magnitude

def add (a b : Nat) : Except Breach Nat :=
  if a + b < Exact.significandBound then .ok (a + b) else .error (.overflow .add)

theorem add_eq_ok_iff {a b c : Nat} : add a b = .ok c ↔ a + b = c ∧ c < Exact.significandBound := by
  unfold add
  split <;> simp <;> omega

end Magnitude

/-- A search for an integer root: what is left of the value, the digits found so far above the place
of the next one, and the weight of that place, which is zero at the end. -/
structure RootSearch where
  remainder : Nat
  root : Nat
  weight : Nat
  deriving DecidableEq, Repr

namespace RootSearch

def step (s : RootSearch) : Except Breach RootSearch := do
  let digit ← Magnitude.add s.root s.weight
  if digit ≤ s.remainder then
    let remainder ← Machine.sub s.remainder digit
    let root ← Magnitude.add (s.root >>> 1) s.weight
    return ⟨remainder, root, s.weight >>> 2⟩
  else return ⟨s.remainder, s.root >>> 1, s.weight >>> 2⟩

theorem step_weight {s t : RootSearch} (h : s.step = .ok t) : t.weight = s.weight >>> 2 := by
  unfold step Magnitude.add Machine.sub at h
  simp only [bind, Except.bind, pure, Except.pure] at h
  grind

def run (s : RootSearch) : Except Breach Nat :=
  if s.weight = 0 then .ok s.root
  else
    match _ : s.step with
    | .ok t => t.run
    | .error breach => .error breach
termination_by s.weight
decreasing_by
  rw [step_weight ‹s.step = .ok t›, Nat.shiftRight_eq_div_pow]
  omega

def firstWeight (value weight : Nat) : Nat :=
  if value < weight then firstWeight value (weight >>> 2) else weight
termination_by weight
decreasing_by
  rw [Nat.shiftRight_eq_div_pow]
  omega

end RootSearch

namespace Exact.Bounded

def normalExponent (a : Exact) : Except Breach Int := Exponent.add a.exponent (topBit a.significand)

def alignedTo (a : Exact) (bit : Nat) : Except Breach Exact := do
  if a.significand ≠ 0 then
    let _ ← Exponent.sub a.exponent (bit - topBit a.significand)
  return a.alignedTo bit

def roundAt (significand : Nat) (exponent : Int) (sticky : Bool) (lsb : Int)
    (rounding : Rounding) (negative : Bool) : Except Breach Kept := do
  let drop ← Exponent.sub lsb exponent
  if drop ≤ 0 then
    let _ ← Exponent.neg drop
  let kept := Exact.roundAt significand exponent sticky lsb rounding negative
  if significandBound ≤ kept.significand then throw (.overflow .add)
  return kept

theorem roundAt_eq_ok {significand : Nat} {exponent lsb : Int} {sticky : Bool} {rounding : Rounding}
    {negative : Bool} (hlow : -0x80000000 < lsb - exponent) (hhigh : lsb - exponent < 0x80000000)
    (hkept : (Exact.roundAt significand exponent sticky lsb rounding negative).significand <
      significandBound) :
    roundAt significand exponent sticky lsb rounding negative =
      .ok (Exact.roundAt significand exponent sticky lsb rounding negative) := by
  have hsub : Exponent.sub lsb exponent = .ok (lsb - exponent) :=
    Exponent.fit_eq_ok_iff.mpr ⟨rfl, by omega, by omega⟩
  have hneg : Exponent.neg (lsb - exponent) = .ok (-(lsb - exponent)) :=
    Exponent.fit_eq_ok_iff.mpr ⟨rfl, by omega, by omega⟩
  simp [roundAt, hsub, hneg, Nat.not_le.mpr hkept, bind, Except.bind, pure, Except.pure]

def round (a : Exact) (sticky : Bool) (limits : FloatLimits) (rounding : Rounding) :
    Except Breach Rounded := do
  let r := a.round sticky limits rounding
  if a.significand ≠ 0 then
    let e ← normalExponent a
    if !(e < limits.emin && limits.denormals) then
      let _ ← Exponent.sub e limits.precision
    let _ ← roundAt a.significand a.exponent sticky (a.lastBit limits) rounding a.negative
    if !r.value.isZero then
      let _ ← normalExponent r.value
  return r

def add (a b : Exact) : Except Breach Truncated := do
  if !a.isZero && !b.isZero then
    let x ← normalExponent a
    let y ← normalExponent b
    let big ← alignedTo (if y ≤ x then a else b) 126
    let small ← alignedTo (if y ≤ x then b else a) 126
    let _ ← Exponent.sub big.exponent small.exponent
  return a.add b

def mul (a b : Exact) : Except Breach Exact := do
  if !a.isZero && !b.isZero then
    let x ← alignedTo a 63
    let y ← alignedTo b 63
    let _ ← Exponent.add x.exponent y.exponent
  return a.mul b

def div (a b : Exact) : Except Breach Truncated := do
  if !a.isZero && !b.isZero then
    let x ← alignedTo a 126
    let y ← alignedTo b 62
    let _ ← Exponent.sub x.exponent y.exponent
  return a.div b

def integerRoot (value : Nat) : Except Breach Nat :=
  RootSearch.run ⟨value, 0, RootSearch.firstWeight value (1 <<< 126)⟩

def squareRoot (a : Exact) : Except Breach Truncated := do
  if a.isZero then return ⟨a, false⟩
  let a ← alignedTo a 124
  let a := if a.exponent % 2 = 0 then a else ⟨a.negative, a.exponent - 1, a.significand <<< 1⟩
  let root ← integerRoot a.significand
  return ⟨⟨false, a.exponent / 2, root⟩, root * root != a.significand⟩

def order (a b : Exact) : Except Breach Ordering := do
  if !a.isZero && !b.isZero && a.negative == b.negative then
    let x ← normalExponent a
    let y ← normalExponent b
    if x = y then
      let _ ← alignedTo a 127
      let _ ← alignedTo b 127
  return a.order b

def toInteger (a : Exact) (rounding : Rounding) : Except Breach RoundedInteger := do
  if !a.isZero then
    if 0 ≤ a.exponent then
      let _ ← normalExponent a
    else
      let _ ← roundAt a.significand a.exponent false 0 rounding a.negative
  return a.toInteger rounding

end Exact.Bounded

end EV6
