import OpeningHours.Text

/-!
Signed decimal numbers as they are written: a whole part without leading zeros, and optionally digits
after a point and a power of ten. A numeral is its spelling up to the spelling of the exponent; `1`,
`1.0` and `10e-1` are three numerals. Only those without point and exponent stand for integers, and a
negative zero does not.
-/

namespace OpeningHours.Decimal

open Text

structure Numeral where
  negative : Bool
  whole : Nat
  /-- the digits after the point; without any there is no point -/
  fraction : List (Fin 10)
  exponent : Option Int
deriving DecidableEq, Repr

def zeroDigit : Fin 10 := ⟨0, by decide⟩

def digitValue (c : Char) : Fin 10 := Fin.ofNat 10 (c.toNat - '0'.toNat)

def digitChar (d : Fin 10) : Char := Nat.digitChar d.val

/-- An integer with a minus sign if it is negative. -/
def signed (k : Int) : List Char := if k < 0 then '-' :: digits k.natAbs else digits k.natAbs

/-- Reads an integer with an optional sign. -/
def signed? : List Char → Option Int
  | '-' :: s => (numeral? s).map fun n => -(n : Int)
  | '+' :: s => (numeral? s).map fun n => (n : Int)
  | s => (numeral? s).map fun n => (n : Int)

namespace Numeral

/-- The numeral of an integer. -/
def ofInt (k : Int) : Numeral := ⟨k < 0, k.natAbs, [], none⟩

/-- The integer that is written without point and exponent. -/
def toInt? (n : Numeral) : Option Int :=
  if n.fraction = [] ∧ n.exponent = none ∧ ¬ (n.negative = true ∧ n.whole = 0) then
    some (if n.negative then -n.whole else n.whole)
  else none

theorem toInt?_ofInt (k : Int) : (ofInt k).toInt? = some k := by
  simp only [toInt?, ofInt, decide_eq_true_eq, true_and]
  rw [if_pos (by omega)]
  congr 1
  split <;> omega

def chars (n : Numeral) : List Char :=
  (if n.negative then ['-'] else []) ++ digits n.whole ++
    (if n.fraction = [] then [] else '.' :: n.fraction.map digitChar) ++
    (match n.exponent with
      | none => []
      | some e => 'e' :: signed e)

/-- Reads the digits after a point, if there is one, and gives the rest of the text. -/
def fraction? : List Char → Option (List (Fin 10) × List Char)
  | '.' :: s =>
    let ds := s.takeWhile Char.isDigit
    if ds = [] then none else some (ds.map digitValue, s.dropWhile Char.isDigit)
  | s => some ([], s)

/-- Reads a power of ten that reaches to the end of the text, if there is one. -/
def exponent? : List Char → Option (Option Int)
  | [] => some none
  | c :: s => if c = 'e' ∨ c = 'E' then (signed? s).map some else none

/-- Reads a numeral and nothing else. -/
def read? (s : List Char) : Option Numeral := do
  let negative := s.head? = some '-'
  let s := if negative then s.tail else s
  let whole ← numeral? (s.takeWhile Char.isDigit)
  if digits whole ≠ s.takeWhile Char.isDigit then none
  let (fraction, s) ← fraction? (s.dropWhile Char.isDigit)
  let exponent ← exponent? s
  some ⟨negative, whole, fraction, exponent⟩

end Numeral

end OpeningHours.Decimal
