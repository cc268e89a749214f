/-!
Text as lists of characters: blanks around it, cutting it at a character, and natural numbers in
decimal. Blank is every character with the Unicode property White_Space; the 25 of them have not
changed since Unicode 6.3. Numbers are read from ASCII digits, with leading zeros or without; written
ones have none, except to fill a width of two.
-/

namespace OpeningHours.Text

/-! ### Blanks and cuts -/

/-- Closed ranges of the code points of white space, ascending and apart. -/
def blankRanges : List (Nat × Nat) :=
  [(0x09, 0x0D), (0x20, 0x20), (0x85, 0x85), (0xA0, 0xA0), (0x1680, 0x1680), (0x2000, 0x200A),
    (0x2028, 0x2029), (0x202F, 0x202F), (0x205F, 0x205F), (0x3000, 0x3000)]

def isBlank (c : Char) : Bool := blankRanges.any fun r => r.1 ≤ c.toNat && c.toNat ≤ r.2

/-- Without the blanks at its start. -/
def trimStart (s : List Char) : List Char := s.dropWhile isBlank

/-- Without the blanks at either end. -/
def trim (s : List Char) : List Char := (trimStart (trimStart s).reverse).reverse

/-- The parts before and after the first `c`. -/
def cut? (c : Char) : List Char → Option (List Char × List Char)
  | [] => none
  | x :: xs => if x = c then some ([], xs) else (cut? c xs).map fun p => (x :: p.1, p.2)

theorem cut?_eq_some {c : Char} {s a b : List Char} :
    cut? c s = some (a, b) ↔ s = a ++ c :: b ∧ c ∉ a := by
  induction s generalizing a with
  | nil => simp [cut?]
  | cons x xs ih =>
    simp only [cut?]
    split
    · next h =>
      subst h
      constructor
      · intro h; cases h; simp
      · rintro ⟨h, hc⟩
        cases a with
        | nil => simp_all
        | cons y ys => simp_all
    · next h =>
      simp only [Option.map_eq_some_iff, Prod.exists, Prod.mk.injEq]
      constructor
      · rintro ⟨u, v, huv, rfl, rfl⟩
        obtain ⟨rfl, hu⟩ := ih.1 huv
        exact ⟨rfl, by simp [hu, Ne.symm h]⟩
      · rintro ⟨hs, hc⟩
        cases a with
        | nil => simp_all
        | cons y ys =>
          simp only [List.cons_append, List.cons.injEq] at hs
          obtain ⟨rfl, rfl⟩ := hs
          exact ⟨ys, b, ih.2 ⟨rfl, by simp_all⟩, rfl, rfl⟩

/-! ### Numerals -/

def digits (n : Nat) : List Char := Nat.toDigits 10 n

/-- At least two digits. -/
def twoDigits (n : Nat) : List Char := if n < 10 then '0' :: digits n else digits n

/-- Reads one or more digits and nothing else. -/
def numeral? (s : List Char) : Option Nat :=
  if s ≠ [] ∧ s.all Char.isDigit then some (Nat.ofDigitChars 10 s 0) else none

/-- Reads one or more digits after an optional `+`. -/
def unsigned? : List Char → Option Nat
  | '+' :: s => numeral? s
  | s => numeral? s

theorem all_isDigit_digits (n : Nat) : (digits n).all Char.isDigit = true := by
  simp only [List.all_eq_true]
  exact fun c hc => Nat.isDigit_of_mem_toDigits (by decide) (by decide) hc

theorem numeral?_digits (n : Nat) : numeral? (digits n) = some n := by
  rw [numeral?, if_pos ⟨Nat.toDigits_ne_nil, all_isDigit_digits n⟩]
  exact congrArg some Nat.ofDigitChars_ten_toDigits

end OpeningHours.Text
