import OpeningHours.Decimal.Double

/-!
The shortest decimals that stand for a double. A decimal stands for the double nearest to it, so it lies
in the interval that reaches halfway to the two neighbours. Of all powers of ten with a multiple in that
interval the largest is taken, and of its multiples the one nearest to the double.
-/

namespace OpeningHours.Decimal

/-- A positive double, `mantissa` times a power of two. -/
structure Binary where
  mantissa : Nat
  exponent : Int
  /-- the neighbour below is half as far away as the one above -/
  narrow : Bool
deriving DecidableEq, Repr

namespace Binary

/-- The magnitude of a finite double. -/
def ofBits (bits : UInt64) : Binary :=
  let e := ((bits >>> 52) &&& 0x7FF).toNat
  let f := (bits &&& 0xFFFFFFFFFFFFF).toNat
  if e = 0 then ⟨f, -1074, false⟩ else ⟨4503599627370496 + f, e - 1075, f == 0 && e != 1⟩

/-- The double over `10 ^ k`, as a fraction. -/
def ratio (b : Binary) (k : Int) : Nat × Nat :=
  (b.mantissa * Nat.pow 2 b.exponent.toNat * Nat.pow 10 (-k).toNat,
    Nat.pow 2 (-b.exponent).toNat * Nat.pow 10 k.toNat)

/-- Whether `n * 10 ^ k` stands for the double; the halfway points do if the mantissa is even. -/
def admits (b : Binary) (n : Nat) (k : Int) : Bool :=
  let unit := Nat.pow 2 b.exponent.toNat * Nat.pow 10 (-k).toNat
  let low := (4 * b.mantissa - if b.narrow then 1 else 2) * unit
  let high := (4 * b.mantissa + 2) * unit
  let x := 4 * n * (b.ratio k).2
  if b.mantissa % 2 = 0 then low ≤ x && x ≤ high else low < x && x < high

/-- The multiple of `10 ^ k` nearest to the double among those that stand for it; of two equally near
ones the even one. -/
def nearest? (b : Binary) (k : Int) : Option Nat :=
  let (p, q) := b.ratio k
  let below := p / q
  let above := below + 1
  match b.admits below k, b.admits above k with
  | false, false => none
  | true, false => some below
  | false, true => some above
  | true, true =>
    match compare (2 * (p % q)) q with
    | .lt => some below
    | .gt => some above
    | .eq => some (if below % 2 = 0 then below else above)

/-- A power of ten above the double, by a factor of at most a thousand. -/
def magnitude (b : Binary) : Int := (b.mantissa.log2 + b.exponent + 1) * 30103 / 100000 + 2

/-- The double itself in decimals. -/
def exact (b : Binary) : Scaled :=
  if 0 ≤ b.exponent then ⟨b.mantissa * Nat.pow 2 b.exponent.toNat, 0⟩
  else ⟨b.mantissa * Nat.pow 5 b.exponent.natAbs, b.exponent⟩

/-- The shortest decimals; seventeen digits always suffice. -/
def shortest (b : Binary) : Scaled :=
  ((List.range 22).findSome? fun (i : Nat) =>
    (b.nearest? (b.magnitude - i)).map fun n => ⟨n, b.magnitude - i⟩).getD b.exact

end Binary

/-! ### Layout -/

/-- How decimals are laid out: plainly while the point falls within these many places of the first
digit, otherwise with an exponent. -/
structure Layout where
  /-- zeros after the point at most -/
  zeros : Nat
  /-- digits before the point at most -/
  places : Nat
deriving DecidableEq, Repr

/-- The digits of `n`, filled up with zeros to `width` places. -/
def fractionOf (n : Nat) (width : Nat) : List (Fin 10) :=
  let ds := (Text.digits n).map digitValue
  List.replicate (width - ds.length) zeroDigit ++ ds

/-- Decimals in a layout; there is always a point unless there is an exponent. -/
def Scaled.toNumeral (s : Scaled) (layout : Layout) (negative : Bool) : Numeral :=
  let n := s.significand
  let k := s.exponent
  let point : Int := (Text.digits n).length + k
  if 0 ≤ k ∧ point ≤ layout.places then ⟨negative, n * Nat.pow 10 k.toNat, [zeroDigit], none⟩
  else if k < 0 ∧ -layout.zeros ≤ point ∧ point ≤ layout.places then
    let unit := Nat.pow 10 k.natAbs
    ⟨negative, n / unit, fractionOf (n % unit) k.natAbs, none⟩
  else
    let width := (Text.digits n).length - 1
    let unit := Nat.pow 10 width
    ⟨negative, n / unit, if width = 0 then [] else fractionOf (n % unit) width, some (point - 1)⟩

/-- The numeral that a finite double is written as. -/
def Numeral.ofFloat (layout : Layout) (x : Float) : Numeral :=
  let bits := x.toBits
  let b := Binary.ofBits bits
  let negative := bits >>> 63 = 1
  if b.mantissa = 0 then ⟨negative, 0, [zeroDigit], none⟩ else b.shortest.toNumeral layout negative

end OpeningHours.Decimal
