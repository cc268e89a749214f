import OpeningHours.Decimal.Numeral

/-!
Numerals as double-precision numbers. The leading digits make up a significand of at most 64 bits, digits
that no longer fit are dropped, and the significand is then scaled by one power of ten. The result can
differ in its last bits from the double nearest to the numeral; numerals beyond the range of doubles
have none, and those too small for it are zero.
-/

namespace OpeningHours.Decimal

/-- A natural number times a power of ten. -/
structure Scaled where
  significand : Nat
  exponent : Int
deriving DecidableEq, Repr

namespace Scaled

/-- Significands stay below this bound. -/
def limit : Nat := UInt64.size

/-- The longest run of leading digits of `n` that fits. -/
def ofNat (n : Nat) : Scaled :=
  if n < limit then ⟨n, 0⟩
  else
    let s := ofNat (n / 10)
    ⟨s.significand, s.exponent + 1⟩
termination_by n
decreasing_by simp only [limit, UInt64.size] at *; omega

/-- Digits after the point, up to the first that does not fit. -/
def append (s : Scaled) : List (Fin 10) → Scaled
  | [] => s
  | d :: ds =>
    if 10 * s.significand + d.val < limit then
      append ⟨10 * s.significand + d.val, s.exponent - 1⟩ ds
    else s

def ofNumeral (n : Numeral) : Scaled :=
  let s := (ofNat n.whole).append n.fraction
  ⟨s.significand, s.exponent + n.exponent.getD 0⟩

end Scaled

/-- The double nearest to a power of ten. -/
def powerOfTen (n : Nat) : Float := Float.ofScientific 1 false n

/-- The greatest `n` for which ten to the power `n` is a double. -/
def maxPower : Nat := 308

/-- `x` times ten to the power `n`, unless that is too large. -/
def scaleUp? (x : Float) (n : Nat) : Option Float :=
  if n ≤ maxPower then
    let y := x * powerOfTen n
    if y.isInf then none else some y
  else if x == 0 then some x
  else none

/-- `x` divided by ten to the power `n`, in steps of at most `maxPower`. -/
def scaleDown (x : Float) (n : Nat) : Float :=
  if n ≤ maxPower then x / powerOfTen n
  else if x == 0 then x
  else scaleDown (x / powerOfTen maxPower) (n - maxPower)
termination_by n
decreasing_by simp only [maxPower] at *; omega

def Scaled.toFloat? (s : Scaled) : Option Float :=
  let x := (UInt64.ofNat s.significand).toFloat
  if 0 ≤ s.exponent then scaleUp? x s.exponent.toNat else some (scaleDown x s.exponent.natAbs)

/-- The double that a numeral is read as, with the sign of zero kept. -/
def Numeral.toFloat? (n : Numeral) : Option Float :=
  (Scaled.ofNumeral n).toFloat?.map fun x => if n.negative then -x else x

end OpeningHours.Decimal
