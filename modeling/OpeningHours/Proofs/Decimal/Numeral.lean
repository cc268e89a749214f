import Mathlib.Tactic.Common
import OpeningHours.Decimal.Numeral

/-!
Numerals read back as written: a numeral's characters are read as that numeral, whatever its sign, digits
and exponent. The parts of a numeral are told apart by their first character, which is no digit.
-/

namespace OpeningHours.Decimal

open Text

theorem isDigit_digitChar (d : Fin 10) : (digitChar d).isDigit = true := by
  revert d
  decide

theorem digitValue_digitChar (d : Fin 10) : digitValue (digitChar d) = d := by
  revert d
  decide

/-- Text whose first character, if any, is no digit. -/
def Undigited (s : List Char) : Prop := ∀ c ∈ s.head?, c.isDigit = false

theorem takeWhile_digits {ds s : List Char} (hd : ds.all Char.isDigit = true) (hs : Undigited s) :
    (ds ++ s).takeWhile Char.isDigit = ds ∧ (ds ++ s).dropWhile Char.isDigit = s := by
  rw [List.all_eq_true] at hd
  rw [List.takeWhile_append_of_pos hd, List.dropWhile_append_of_pos hd]
  cases s with
  | nil => simp
  | cons c s => simp [hs c rfl]

theorem signed?_digits (n : Nat) : signed? (digits n) = some (n : Int) := by
  have hall := all_isDigit_digits n
  have hread := numeral?_digits n
  unfold signed?
  split
  · next h => simp [h] at hall
  · next h => simp [h] at hall
  · rw [hread]
    rfl

theorem signed?_signed (k : Int) : signed? (signed k) = some k := by
  unfold signed
  split_ifs with hk
  · rw [signed?, numeral?_digits]
    show some (-(k.natAbs : Int)) = some k
    congr 1
    omega
  · rw [signed?_digits]
    congr 1
    omega

namespace Numeral

/-- The power of ten as it is written. -/
def exponentChars : Option Int → List Char
  | none => []
  | some e => 'e' :: signed e

/-- The digits after the point as they are written. -/
def fractionChars (ds : List (Fin 10)) : List Char := if ds = [] then [] else '.' :: ds.map digitChar

theorem chars_eq (n : Numeral) : n.chars = (if n.negative then ['-'] else []) ++
    (digits n.whole ++ (fractionChars n.fraction ++ exponentChars n.exponent)) := by
  unfold chars fractionChars exponentChars
  cases n.exponent <;> simp only [List.append_assoc]

theorem exponent?_chars (e : Option Int) : exponent? (exponentChars e) = some e := by
  cases e with
  | none => rfl
  | some e => simp [exponentChars, exponent?, signed?_signed]

theorem undigited_exponentChars (e : Option Int) : Undigited (exponentChars e) := by
  cases e with
  | none => simp [Undigited, exponentChars]
  | some e => simp [Undigited, exponentChars]

theorem undigited_fractionChars (ds : List (Fin 10)) (e : Option Int) :
    Undigited (fractionChars ds ++ exponentChars e) := by
  unfold fractionChars
  split_ifs with hd
  · exact undigited_exponentChars e
  · simp [Undigited]

theorem fraction?_chars (ds : List (Fin 10)) (e : Option Int) :
    fraction? (fractionChars ds ++ exponentChars e) = some (ds, exponentChars e) := by
  unfold fractionChars
  split_ifs with hd
  · subst hd
    cases e <;> rfl
  · have hall : (ds.map digitChar).all Char.isDigit = true := by simp [isDigit_digitChar]
    obtain ⟨htake, hdrop⟩ := takeWhile_digits hall (undigited_exponentChars e)
    have hback : (ds.map digitChar).map digitValue = ds := by simp [Function.comp_def, digitValue_digitChar]
    simp only [List.cons_append, fraction?, htake, hdrop, hback, List.map_eq_nil_iff, hd, if_false]

theorem read?_digits (negative : Bool) (whole : Nat) (ds : List (Fin 10)) (e : Option Int)
    (s : List Char) (hs : s = digits whole ++ (fractionChars ds ++ exponentChars e)) :
    (do
      let n ← numeral? (s.takeWhile Char.isDigit)
      if digits n ≠ s.takeWhile Char.isDigit then none
      let (fraction, s) ← fraction? (s.dropWhile Char.isDigit)
      let exponent ← exponent? s
      some (⟨negative, n, fraction, exponent⟩ : Numeral)) = some ⟨negative, whole, ds, e⟩ := by
  obtain ⟨htake, hdrop⟩ := takeWhile_digits (all_isDigit_digits whole) (undigited_fractionChars ds e)
  subst hs
  simp [htake, hdrop, numeral?_digits, fraction?_chars, exponent?_chars]

/-- The first character of an unsigned numeral is a digit. -/
theorem head?_digits (n : Nat) : ∃ c s, digits n = c :: s ∧ c.isDigit = true := by
  have hall := all_isDigit_digits n
  cases hd : digits n with
  | nil => exact absurd hd Nat.toDigits_ne_nil
  | cons c s =>
    rw [hd] at hall
    simp only [List.all_cons, Bool.and_eq_true] at hall
    exact ⟨c, s, rfl, hall.1⟩

/-- Every numeral is read back as written. -/
theorem read?_chars (n : Numeral) : read? n.chars = some n := by
  obtain ⟨negative, whole, ds, e⟩ := n
  rw [chars_eq]
  unfold read?
  cases negative with
  | true => simpa using read?_digits true whole ds e _ rfl
  | false =>
    obtain ⟨c, s, hd, hc⟩ := head?_digits whole
    have hne : c ≠ '-' := by
      rintro rfl
      exact absurd hc (by decide)
    have hread := read?_digits false whole ds e _ rfl
    rw [hd, List.cons_append] at hread
    simpa [hd, hne] using hread

end Numeral

end OpeningHours.Decimal
