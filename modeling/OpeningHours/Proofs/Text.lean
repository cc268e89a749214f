import Mathlib.Data.List.Induction
import Mathlib.Tactic.Common
import OpeningHours.Text

/-!
What is read from text and what is written. A text has one core: the part between two runs of blanks that neither
begins nor ends with one. Trimming gives that core. Text can be cut where a character occurs. A numeral is one or
more digits, and its number is made up from the left: every further digit counts once and all before it ten times.
Reading accepts the numerals and nothing else. What is written for a number is a numeral that stands for it, so no
two numbers are written alike.
-/

namespace OpeningHours.Text

/-! ### Trimming -/

/-- No characters but blanks. -/
def Blank (s : List Char) : Prop := ∀ c ∈ s, isBlank c = true

/-- `w` is what remains of `s` without the blanks at either end. -/
def IsCore (s w : List Char) : Prop :=
  ∃ a b, s = a ++ w ++ b ∧ Blank a ∧ Blank b ∧
    (∀ c ∈ w.head?, isBlank c = false) ∧ ∀ c ∈ w.getLast?, isBlank c = false

theorem isBlank_of_isDigit {c : Char} (hc : c.isDigit = true) : isBlank c = false := by
  have hdigit : 48 ≤ c.toNat ∧ c.toNat ≤ 57 := Char.isDigit_iff_toNat.1 hc
  refine Bool.eq_false_iff.2 fun hblank => ?_
  simp only [isBlank, blankRanges, List.any_cons, List.any_nil, Bool.or_eq_true, Bool.and_eq_true,
    decide_eq_true_eq, Bool.false_eq_true, or_false] at hblank
  omega

theorem blank_reverse {s : List Char} : Blank s.reverse ↔ Blank s := by
  simp only [Blank, List.mem_reverse]

/-- What is left at the start follows a run of blanks and begins with none. -/
theorem trimStart_eq_iff {s w : List Char} :
    trimStart s = w ↔ ∃ a, s = a ++ w ∧ Blank a ∧ ∀ c ∈ w.head?, isBlank c = false := by
  unfold trimStart
  constructor
  · rintro rfl
    refine ⟨s.takeWhile isBlank, List.takeWhile_append_dropWhile.symm, List.all_eq_true.1 List.all_takeWhile, ?_⟩
    intro c hc
    have hfirst := List.head?_dropWhile_not isBlank s
    rwa [Option.mem_def.1 hc] at hfirst
  · rintro ⟨a, rfl, ha, hhead⟩
    rw [List.dropWhile_append_of_pos ha]
    cases w with
    | nil => rfl
    | cons c w => exact List.dropWhile_cons_of_neg (by simp [hhead c rfl])

/-- Trimming gives the core. -/
theorem isCore_trim (s : List Char) : IsCore s (trim s) := by
  obtain ⟨a, hs, ha, hhead⟩ := trimStart_eq_iff.1 (rfl : trimStart s = trimStart s)
  obtain ⟨b, hr, hb, hlast⟩ := trimStart_eq_iff.1 (rfl : trimStart (trimStart s).reverse = _)
  have hsplit : trimStart s = trim s ++ b.reverse := by
    rw [← List.reverse_reverse (trimStart s), hr, List.reverse_append, trim]
  refine ⟨a, b.reverse, ?_, ha, blank_reverse.2 hb, ?_, ?_⟩
  · rw [List.append_assoc, ← hsplit, ← hs]
  · intro c hc
    refine hhead c ?_
    rw [hsplit, List.head?_append, Option.mem_def.1 hc]
    rfl
  · intro c hc
    rw [trim, List.getLast?_reverse] at hc
    exact hlast c hc

/-- There is no other core. -/
theorem IsCore.trim_eq {s w : List Char} (h : IsCore s w) : trim s = w := by
  obtain ⟨a, b, hs, ha, hb, hhead, hlast⟩ := h
  -- without a core the blanks after it are dropped together with those before it
  cases w with
  | nil =>
    have hblank : Blank (a ++ b) := fun c hc => (List.mem_append.1 hc).elim (ha c) (hb c)
    have hstart : trimStart s = [] := trimStart_eq_iff.2 ⟨a ++ b, by simpa using hs, hblank, by simp⟩
    rw [trim, hstart]
    rfl
  | cons c w =>
    have hstart : trimStart s = c :: w ++ b :=
      trimStart_eq_iff.2 ⟨a, by simpa using hs, ha, by simpa using hhead⟩
    have hback : trimStart (c :: w ++ b).reverse = (c :: w).reverse :=
      trimStart_eq_iff.2 ⟨b.reverse, List.reverse_append, blank_reverse.2 hb, by rwa [List.head?_reverse]⟩
    rw [trim, hstart, hback, List.reverse_reverse]

/-! ### Cutting -/

/-- Text is not cut at a character that does not occur. -/
theorem cut?_eq_none_iff {c : Char} {s : List Char} : cut? c s = none ↔ c ∉ s := by
  constructor
  · intro hnone hmem
    obtain ⟨a, b, hs, ha⟩ := List.eq_append_cons_of_mem hmem
    simp [cut?_eq_some.2 ⟨hs, ha⟩] at hnone
  · intro hmem
    refine Option.eq_none_iff_forall_ne_some.2 fun p hp => hmem ?_
    rw [(cut?_eq_some.1 hp).1]
    exact List.mem_append_right _ List.mem_cons_self

/-- Two cuts at the first `c` are the same. -/
theorem append_cons_inj {c : Char} {a b a' b' : List Char} (ha : c ∉ a) (ha' : c ∉ a')
    (h : a ++ c :: b = a' ++ c :: b') : a = a' ∧ b = b' := by
  have hcut : some (a, b) = some (a', b') :=
    (cut?_eq_some.2 ⟨rfl, ha⟩).symm.trans (cut?_eq_some.2 ⟨h, ha'⟩)
  simpa using hcut

/-! ### Numerals -/

/-- The digits `s` stand for the number `n`. -/
inductive Denotes : List Char → ℕ → Prop
  | digit {c : Char} (hc : c.isDigit = true) : Denotes [c] (c.toNat - '0'.toNat)
  | snoc {s : List Char} {n : ℕ} {c : Char} (hs : Denotes s n) (hc : c.isDigit = true) :
      Denotes (s ++ [c]) (10 * n + (c.toNat - '0'.toNat))

/-- A numeral, with a plus sign in front of it or not. -/
def DenotesUnsigned (s : List Char) (n : ℕ) : Prop := Denotes s n ∨ ∃ t, s = '+' :: t ∧ Denotes t n

namespace Denotes

variable {s : List Char} {m n : ℕ}

theorem ne_nil (h : Denotes s n) : s ≠ [] := by
  cases h <;> simp

theorem isDigit (h : Denotes s n) : ∀ c ∈ s, c.isDigit = true := by
  induction h with
  | digit hc => simpa using hc
  | snoc _ hc ih => exact List.forall_mem_append.2 ⟨ih, by simpa using hc⟩

/-- No character but a digit occurs. -/
theorem not_mem (h : Denotes s n) {c : Char} (hc : c.isDigit = false) : c ∉ s :=
  fun hmem => by simp [h.isDigit c hmem] at hc

theorem ofDigitChars_eq (h : Denotes s n) : Nat.ofDigitChars 10 s 0 = n := by
  induction h with
  | digit hc => simp [Nat.ofDigitChars_cons]
  | snoc _ hc ih => simp [Nat.ofDigitChars_append, Nat.ofDigitChars_cons, ih]

theorem unique (hm : Denotes s m) (hn : Denotes s n) : m = n :=
  hm.ofDigitChars_eq.symm.trans hn.ofDigitChars_eq

end Denotes

/-- Digits stand for a number if there is any digit at all. -/
theorem denotes_ofDigitChars {s : List Char} (hs : s ≠ []) (hd : ∀ c ∈ s, c.isDigit = true) :
    Denotes s (Nat.ofDigitChars 10 s 0) := by
  induction s using List.reverseRecOn with
  | nil => exact absurd rfl hs
  | append_singleton s c ih =>
    rw [List.forall_mem_append, List.forall_mem_singleton] at hd
    have hvalue : Nat.ofDigitChars 10 (s ++ [c]) 0 = 10 * Nat.ofDigitChars 10 s 0 + (c.toNat - '0'.toNat) := by
      rw [Nat.ofDigitChars_append, Nat.ofDigitChars_cons, Nat.ofDigitChars_nil]
    by_cases hnil : s = []
    · subst hnil
      simpa [Nat.ofDigitChars_cons] using Denotes.digit hd.2
    · rw [hvalue]
      exact (ih hnil hd.1).snoc hd.2

/-! ### Reading numerals -/

theorem numeral?_eq_some_iff {s : List Char} {n : ℕ} : numeral? s = some n ↔ Denotes s n := by
  unfold numeral?
  constructor
  · intro h
    split_ifs at h with hs
    obtain rfl := Option.some.inj h
    exact denotes_ofDigitChars hs.1 (List.all_eq_true.1 hs.2)
  · intro h
    rw [if_pos ⟨h.ne_nil, List.all_eq_true.2 h.isDigit⟩, h.ofDigitChars_eq]

theorem unsigned?_eq_some_iff {s : List Char} {n : ℕ} : unsigned? s = some n ↔ DenotesUnsigned s n := by
  unfold unsigned? DenotesUnsigned
  split
  · next t =>
    have hplus : ¬ Denotes ('+' :: t) n := fun h => h.not_mem (by decide) List.mem_cons_self
    simp [numeral?_eq_some_iff, hplus]
  · next hplus =>
    rw [numeral?_eq_some_iff, or_iff_left]
    exact fun ⟨t, ht, _⟩ => hplus t ht

/-! ### Writing numerals -/

theorem denotes_digits (n : ℕ) : Denotes (digits n) n := numeral?_eq_some_iff.1 (numeral?_digits n)

theorem denotes_twoDigits (n : ℕ) : Denotes (twoDigits n) n := by
  unfold twoDigits
  split_ifs with hn
  · have hdigits : ∀ c ∈ '0' :: digits n, c.isDigit = true :=
      List.forall_mem_cons.2 ⟨by decide, (denotes_digits n).isDigit⟩
    have hread := denotes_ofDigitChars (List.cons_ne_nil _ _) hdigits
    rwa [Nat.ofDigitChars_cons, Nat.mul_zero, Nat.sub_self, Nat.add_zero,
      (denotes_digits n).ofDigitChars_eq] at hread
  · exact denotes_digits n

theorem digits_inj {m n : ℕ} : digits m = digits n ↔ m = n :=
  ⟨fun h => (denotes_digits m).unique (h ▸ denotes_digits n), fun h => h ▸ rfl⟩

theorem twoDigits_inj {m n : ℕ} : twoDigits m = twoDigits n ↔ m = n :=
  ⟨fun h => (denotes_twoDigits m).unique (h ▸ denotes_twoDigits n), fun h => h ▸ rfl⟩

theorem two_le_length_twoDigits (n : ℕ) : 2 ≤ (twoDigits n).length := by
  have hpos : 0 < (digits n).length := Nat.length_toDigits_pos
  have hone : (digits n).length ≤ 1 → n < 10 := (Nat.length_toDigits_le_iff (by decide : 1 < 10) Nat.one_pos).1
  unfold twoDigits
  split_ifs with hn
  · rw [List.length_cons]
    omega
  · have := mt hone hn
    omega

theorem length_twoDigits {n : ℕ} (hn : n < 100) : (twoDigits n).length = 2 := by
  have hone : n < 10 → (digits n).length ≤ 1 := (Nat.length_toDigits_le_iff (by decide : 1 < 10) Nat.one_pos).2
  have htwo : (digits n).length ≤ 2 := (Nat.length_toDigits_le_iff (by decide : 1 < 10) Nat.two_pos).2 hn
  refine Nat.le_antisymm ?_ (two_le_length_twoDigits n)
  unfold twoDigits
  split_ifs with hten
  · exact Nat.succ_le_succ (hone hten)
  · exact htwo

end OpeningHours.Text
