import Mathlib.Data.List.Chain
import OpeningHours.Json.Token
import OpeningHours.Proofs.Decimal.Numeral

/-!
The scanner finds the tokens of a text again. Reading the characters of one token from between tokens leaves
the scanner where that token is complete: it would finish with it, and a mark that follows is read as the
next token. Tokens written one after the other are therefore found again if of any two neighbours one is
a mark. A line break at the end of a text changes nothing, and there is none inside of a written token.
-/

namespace OpeningHours.Json

open Decimal

/-! ### Escapes -/

namespace CodePoint

theorem ofUnit_toNat (c : Char) : ofUnit c.toNat = scalar c := by
  have hv : ¬ (0xD800 ≤ c.toNat ∧ c.toNat < 0xE000) := by
    have := c.valid
    simp only [Char.toNat, UInt32.isValidChar, Nat.isValidChar] at *
    omega
  rw [ofUnit, dif_neg hv, Char.ofNat_toNat]

theorem ofUnit_surrogate (half : Fin 2048) : ofUnit (0xD800 + half.val) = surrogate half := by
  have hv : 0xD800 ≤ 0xD800 + half.val ∧ 0xD800 + half.val < 0xE000 := by omega
  rw [ofUnit, dif_pos hv]
  simp

theorem letter?_ne_u {c l : Char} (h : letter? c = some l) : l ≠ 'u' := by
  rintro rfl
  have hc : none = some c := unletter?_letter? h
  cases hc

theorem letter?_eq_none {c : Char} (h : letter? c = none) : c ≠ '"' ∧ c ≠ '\\' := by
  constructor <;> rintro rfl <;> exact absurd h (by decide)

end CodePoint

namespace Scan

theorem hexValue?_hexDigit (n : Nat) : hexValue? (CodePoint.hexDigit n) = some (n % 16) := by
  have hall : ∀ m : Fin 16, hexValue? (Nat.digitChar m.val) = some m.val := by decide
  exact hall ⟨n % 16, Nat.mod_lt n (by decide)⟩

theorem step_unit (tokens : List Token) (found : List CodePoint) (value left n : Nat) :
    step ⟨tokens, .unit found value (left + 1)⟩ (CodePoint.hexDigit n) =
      some ⟨tokens, .unit found (16 * value + n % 16) left⟩ := by
  simp [step, hexValue?_hexDigit]

theorem step_unit_last (tokens : List Token) (found : List CodePoint) (value n : Nat) :
    step ⟨tokens, .unit found value 0⟩ (CodePoint.hexDigit n) =
      some ⟨tokens, .quotes (CodePoint.ofUnit (16 * value + n % 16) :: found)⟩ := by
  simp [step, hexValue?_hexDigit]

theorem scan_unitEscape (tokens : List Token) (found : List CodePoint) {u : Nat} (hu : u < 65536) :
    (CodePoint.unitEscape u).foldlM step ⟨tokens, .quotes found⟩ =
      some ⟨tokens, .quotes (CodePoint.ofUnit u :: found)⟩ := by
  have hback : 16 * (16 * (16 * (16 * 0 + u / 4096 % 16) + u / 256 % 16) + u / 16 % 16) + u % 16 = u := by
    omega
  have hslash : step ⟨tokens, .quotes found⟩ '\\' = some ⟨tokens, .escape found⟩ := rfl
  have hletter : step ⟨tokens, .escape found⟩ 'u' = some ⟨tokens, .unit found 0 3⟩ := rfl
  simp only [CodePoint.unitEscape, List.foldlM_cons, List.foldlM_nil, hslash, hletter, step_unit,
    step_unit_last, hback, Option.bind_eq_bind, Option.bind_some, Option.pure_def]

/-- Within quotes, a code point is found again. -/
theorem scan_codePoint (tokens : List Token) (found : List CodePoint) (p : CodePoint) :
    p.chars.foldlM step ⟨tokens, .quotes found⟩ = some ⟨tokens, .quotes (p :: found)⟩ := by
  cases p with
  | surrogate half =>
    rw [CodePoint.chars, scan_unitEscape _ _ (by omega), CodePoint.ofUnit_surrogate]
  | scalar c =>
    simp only [CodePoint.chars]
    cases hl : CodePoint.letter? c with
    | some l =>
      have hu := CodePoint.letter?_ne_u hl
      have hback := CodePoint.unletter?_letter? hl
      simp [step, hu, hback]
    | none =>
      obtain ⟨hquote, hslash⟩ := CodePoint.letter?_eq_none hl
      dsimp only
      split_ifs with hc
      · rw [scan_unitEscape _ _ (by omega), CodePoint.ofUnit_toNat]
      · simp [step, hquote, hslash, hc]

theorem scan_content (tokens : List Token) (content found : List CodePoint) :
    (content.flatMap CodePoint.chars).foldlM step ⟨tokens, .quotes found⟩ =
      some ⟨tokens, .quotes (content.reverse ++ found)⟩ := by
  induction content generalizing found with
  | nil => rfl
  | cons p content ih =>
    rw [List.flatMap_cons, List.foldlM_append, scan_codePoint]
    simp [ih]

/-! ### Numbers -/

theorem isNumberChar_of_isDigit {c : Char} (hc : c.isDigit = true) : isNumberChar c = true := by
  simp [isNumberChar, hc]

theorem isNumberChar_signed (k : Int) : ∀ c ∈ signed k, isNumberChar c = true := by
  have hdigits : ∀ c ∈ Text.digits k.natAbs, isNumberChar c = true := fun c hc =>
    isNumberChar_of_isDigit (List.all_eq_true.1 (Text.all_isDigit_digits _) c hc)
  unfold signed
  split_ifs
  · exact List.forall_mem_cons.2 ⟨by decide, hdigits⟩
  · exact hdigits

theorem isNumberChar_chars (n : Numeral) : ∀ c ∈ n.chars, isNumberChar c = true := by
  rw [Numeral.chars_eq]
  simp only [List.forall_mem_append]
  refine ⟨?_, fun c hc => ?_, ?_, ?_⟩
  · split_ifs
    · exact List.forall_mem_singleton.2 (by decide)
    · simp
  · exact isNumberChar_of_isDigit (List.all_eq_true.1 (Text.all_isDigit_digits _) c hc)
  · unfold Numeral.fractionChars
    split_ifs
    · simp
    · refine List.forall_mem_cons.2 ⟨by decide, fun c hc => ?_⟩
      obtain ⟨d, -, rfl⟩ := List.mem_map.1 hc
      exact isNumberChar_of_isDigit (isDigit_digitChar d)
  · cases n.exponent with
    | none => simp [Numeral.exponentChars]
    | some e => exact List.forall_mem_cons.2 ⟨by decide, isNumberChar_signed e⟩

/-- A numeral starts with a digit or a minus sign. -/
theorem chars_numeral (n : Numeral) :
    ∃ c s, n.chars = c :: s ∧ (c.isDigit || c = '-') = true := by
  rw [Numeral.chars_eq]
  cases n.negative with
  | true => exact ⟨'-', _, rfl, by decide⟩
  | false =>
    obtain ⟨c, s, hd, hc⟩ := Numeral.head?_digits n.whole
    exact ⟨c, _, by rw [hd]; rfl, by simp [hc]⟩

theorem scan_numberChars (tokens : List Token) {s : List Char} (hs : ∀ c ∈ s, isNumberChar c = true)
    (found : List Char) :
    s.foldlM step ⟨tokens, .number found⟩ = some ⟨tokens, .number (s.reverse ++ found)⟩ := by
  induction s generalizing found with
  | nil => rfl
  | cons c s ih =>
    rw [List.forall_mem_cons] at hs
    have hstep : step ⟨tokens, .number found⟩ c = some ⟨tokens, .number (c :: found)⟩ := by
      simp [step, hs.1]
    rw [List.foldlM_cons, hstep]
    simp [ih hs.2]

/-! ### Tokens -/

/-- All of `tokens` are complete: they are found if the text ends here, and a mark may follow. -/
structure Complete (s : Scan) (tokens : List Token) : Prop where
  finish : s.finish = some tokens
  step_mark : ∀ m : Mark, s.step m.char = some ⟨.mark m :: tokens, .gap⟩

theorem complete_gap (tokens : List Token) : Complete ⟨tokens, .gap⟩ tokens := by
  refine ⟨rfl, fun m => ?_⟩
  cases m <;> rfl

/-- A run ends at a mark, which is read as if between tokens. -/
theorem complete_number {tokens : List Token} {found : List Char} {n : Numeral}
    (hn : Numeral.read? found.reverse = some n) :
    Complete ⟨tokens, .number found⟩ (.number n :: tokens) := by
  have hfinish : finish ⟨tokens, .number found⟩ = some (.number n :: tokens) := by
    simp [finish, hn]
  refine ⟨hfinish, fun m => ?_⟩
  have hm : isNumberChar m.char = false := by cases m <;> decide
  simp only [step, hm, Bool.false_eq_true, if_false, hfinish, Option.bind_some]
  cases m <;> rfl

theorem complete_letters {tokens : List Token} {found : List Char} {w : Word}
    (hw : Word.ofChars? found.reverse = some w) :
    Complete ⟨tokens, .letters found⟩ (.word w :: tokens) := by
  have hfinish : finish ⟨tokens, .letters found⟩ = some (.word w :: tokens) := by
    simp [finish, hw]
  refine ⟨hfinish, fun m => ?_⟩
  have hm : m.char.isLower = false := by cases m <;> decide
  simp only [step, hm, Bool.false_eq_true, if_false, hfinish, Option.bind_some]
  cases m <;> rfl

theorem enter_number (tokens : List Token) {c : Char} (hc : (c.isDigit || c = '-') = true) :
    enter tokens c = some ⟨tokens, .number [c]⟩ := by
  have hne : ∀ d : Char, d.isDigit = false → d ≠ '-' → c ≠ d := by
    rintro d hd hm rfl
    simp [hd, hm] at hc
  have hspace : isSpace c = false := by
    simp [isSpace, hne ' ' (by decide) (by decide), hne '\t' (by decide) (by decide),
      hne '\n' (by decide) (by decide), hne '\r' (by decide) (by decide)]
  rw [enter, hspace, if_neg (by decide), if_neg (hne '"' (by decide) (by decide)), if_pos hc]

/-- From between tokens, the characters of a token lead to where it is complete. -/
theorem scan_token (tokens : List Token) (t : Token) :
    ∃ s, t.chars.foldlM step ⟨tokens, .gap⟩ = some s ∧ s.Complete (t :: tokens) := by
  cases t with
  | mark m =>
    refine ⟨_, ?_, complete_gap _⟩
    rw [Token.chars, List.foldlM_cons, (complete_gap tokens).step_mark]
    rfl
  | word w =>
    refine ⟨⟨tokens, .letters w.chars.reverse⟩, ?_, complete_letters ?_⟩
    · cases w <;> rfl
    · cases w <;> rfl
  | number n =>
    obtain ⟨c, s, hn, hc⟩ := chars_numeral n
    have hs := isNumberChar_chars n
    rw [hn, List.forall_mem_cons] at hs
    refine ⟨⟨tokens, .number (s.reverse ++ [c])⟩, ?_, complete_number ?_⟩
    · have hstep : step ⟨tokens, .gap⟩ c = some ⟨tokens, .number [c]⟩ := enter_number tokens hc
      rw [Token.chars, hn, List.foldlM_cons, hstep]
      exact scan_numberChars tokens hs.2 [c]
    · rw [List.reverse_append, List.reverse_reverse]
      show Numeral.read? (c :: s) = some n
      rw [← hn, Numeral.read?_chars]
  | quoted content =>
    refine ⟨⟨.quoted content :: tokens, .gap⟩, ?_, complete_gap _⟩
    have hopen : step ⟨tokens, .gap⟩ '"' = some ⟨tokens, .quotes []⟩ := rfl
    have hclose : step ⟨tokens, .quotes content.reverse⟩ '"' =
        some ⟨.quoted content :: tokens, .gap⟩ := by
      simp [step]
    simp only [Token.chars, List.cons_append, List.foldlM_cons, hopen, Option.bind_eq_bind,
      Option.bind_some, List.foldlM_append, scan_content, List.append_nil, List.foldlM_nil, hclose,
      Option.pure_def]

/-- One of two neighbouring tokens is a mark, so that they do not run together. -/
def Apart (t u : Token) : Prop := (∃ m, t = .mark m) ∨ ∃ m, u = .mark m

/-- Tokens are found again from where the ones before are complete. -/
theorem scan_tokens (us : List Token) (hus : us.IsChain Apart) (tokens : List Token) (s : Scan)
    (hs : s.Complete tokens) (hfirst : s = ⟨tokens, .gap⟩ ∨ ∀ u ∈ us.head?, ∃ m, u = .mark m) :
    ∃ s', (us.flatMap Token.chars).foldlM step s = some s' ∧ s'.Complete (us.reverse ++ tokens) := by
  induction us generalizing tokens s with
  | nil => exact ⟨s, rfl, hs⟩
  | cons u us ih =>
    rw [List.isChain_cons] at hus
    obtain ⟨s', hrun, hs', hnext⟩ : ∃ s', u.chars.foldlM step s = some s' ∧ s'.Complete (u :: tokens) ∧
        (s' = ⟨u :: tokens, .gap⟩ ∨ ∀ v ∈ us.head?, ∃ m, v = .mark m) := by
      by_cases hu : ∃ m, u = .mark m
      · obtain ⟨m, rfl⟩ := hu
        refine ⟨_, ?_, complete_gap _, .inl rfl⟩
        rw [Token.chars, List.foldlM_cons, hs.step_mark]
        rfl
      · obtain rfl : s = ⟨tokens, .gap⟩ := hfirst.resolve_right fun h => hu (h u rfl)
        obtain ⟨s', hrun, hs'⟩ := scan_token tokens u
        exact ⟨s', hrun, hs', .inr fun v hv => (hus.1 v hv).resolve_left hu⟩
    obtain ⟨s'', hrun', hs''⟩ := ih hus.2 (u :: tokens) s' hs' hnext
    refine ⟨s'', ?_, by simpa using hs''⟩
    rw [List.flatMap_cons, List.foldlM_append, hrun]
    exact hrun'

end Scan

/-- A line break where a text could end changes nothing, and elsewhere it is an error too. -/
theorem Scan.finish_step_newline (s : Scan) : (s.step '\n').bind finish = s.finish := by
  obtain ⟨tokens, within⟩ := s
  cases within with
  | gap => rfl
  | letters found =>
    show ((finish ⟨tokens, .letters found⟩).bind (enter · '\n')).bind finish = _
    cases finish ⟨tokens, .letters found⟩ <;> rfl
  | number found =>
    show ((finish ⟨tokens, .number found⟩).bind (enter · '\n')).bind finish = _
    cases finish ⟨tokens, .number found⟩ <;> rfl
  | quotes found => rfl
  | escape found => rfl
  | unit found value left => rfl

theorem tokens?_append_newline (text : List Char) : tokens? (text ++ ['\n']) = tokens? text := by
  rw [tokens?, tokens?, List.foldlM_append]
  cases text.foldlM Scan.step Scan.start with
  | none => rfl
  | some s =>
    show (((s.step '\n').bind some).bind Scan.finish).map List.reverse = (s.finish).map List.reverse
    rw [Option.bind_fun_some, s.finish_step_newline]

/-- Tokens of which no two neighbours run together are found again. -/
theorem tokens?_chars {ts : List Token} (hts : ts.IsChain Scan.Apart) :
    tokens? (ts.flatMap Token.chars) = some ts := by
  obtain ⟨s, hrun, hs⟩ := Scan.scan_tokens ts hts [] Scan.start (Scan.complete_gap []) (.inl rfl)
  rw [tokens?, hrun, Option.bind_some, hs.finish]
  simp

/-! ### Line breaks -/

theorem newline_not_mem_unitEscape (u : Nat) : '\n' ∉ CodePoint.unitEscape u := by
  have hdigit : ∀ n, '\n' ≠ CodePoint.hexDigit n := by
    intro n heq
    have hvalue := Scan.hexValue?_hexDigit n
    rw [← heq] at hvalue
    cases hvalue
  simp [CodePoint.unitEscape, hdigit]

/-- A line break between quotes is written as an escape. -/
theorem newline_not_mem_codePoint (p : CodePoint) : '\n' ∉ p.chars := by
  cases p with
  | surrogate half => exact newline_not_mem_unitEscape _
  | scalar c =>
    rw [CodePoint.chars]
    cases hl : CodePoint.letter? c with
    | some l =>
      have hback := CodePoint.unletter?_letter? hl
      have hne : '\n' ≠ l := by
        rintro rfl
        cases hback
      simp [hne]
    | none =>
      dsimp only
      split_ifs with hc
      · exact newline_not_mem_unitEscape _
      · rw [List.mem_singleton]
        rintro rfl
        exact hc (by decide)

/-- No token has a line break. -/
theorem newline_not_mem_token (t : Token) : '\n' ∉ t.chars := by
  cases t with
  | mark m => cases m <;> decide
  | word w => cases w <;> decide
  | number n =>
    intro hmem
    exact absurd (Scan.isNumberChar_chars n _ hmem) (by decide)
  | quoted content =>
    simp only [Token.chars, List.mem_append, List.mem_cons, List.mem_flatMap, List.not_mem_nil, or_false]
    rintro ((h | ⟨p, -, hp⟩) | h)
    · exact absurd h (by decide)
    · exact newline_not_mem_codePoint p hp
    · exact absurd h (by decide)

end OpeningHours.Json
