import OpeningHours.Decimal.Numeral
import OpeningHours.Json.CodePoint

/-!
The tokens of a JSON text, and the scanner that finds them. The scanner is a machine that reads one
character at a time: it is between tokens, within a run of letters or of the characters of numbers, or
within quotes. A run ends at the first character that cannot belong to it, so tokens written one after
the other are found again wherever no two runs touch.
-/

namespace OpeningHours.Json

open Decimal

inductive Mark where
  | openArray | closeArray | openObject | closeObject | comma | colon
deriving DecidableEq, Repr

inductive Word where
  | null | true | false
deriving DecidableEq, Repr

inductive Token where
  | mark (m : Mark)
  | word (w : Word)
  | number (n : Numeral)
  | quoted (content : List CodePoint)
deriving DecidableEq, Repr

def Mark.char : Mark → Char
  | openArray => '['
  | closeArray => ']'
  | openObject => '{'
  | closeObject => '}'
  | comma => ','
  | colon => ':'

def Mark.ofChar? : Char → Option Mark
  | '[' => some openArray
  | ']' => some closeArray
  | '{' => some openObject
  | '}' => some closeObject
  | ',' => some comma
  | ':' => some colon
  | _ => none

def Word.chars : Word → List Char
  | null => ['n', 'u', 'l', 'l']
  | true => ['t', 'r', 'u', 'e']
  | false => ['f', 'a', 'l', 's', 'e']

def Word.ofChars? (s : List Char) : Option Word := [null, true, false].find? (·.chars = s)

def Token.chars : Token → List Char
  | mark m => [m.char]
  | word w => w.chars
  | number n => n.chars
  | quoted content => '"' :: content.flatMap CodePoint.chars ++ ['"']

/-! ### Scanning -/

def isSpace (c : Char) : Bool := c = ' ' || c = '\t' || c = '\n' || c = '\r'

def isNumberChar (c : Char) : Bool :=
  c.isDigit || c = '-' || c = '+' || c = '.' || c = 'e' || c = 'E'

/-- What the scanner is within; the characters and code points found so far are kept last first. -/
inductive Within where
  | gap
  | letters (found : List Char)
  | number (found : List Char)
  | quotes (found : List CodePoint)
  | escape (found : List CodePoint)
  /-- within `\uXXXX`: the value so far, and how many digits are to come after the next one -/
  | unit (found : List CodePoint) (value left : Nat)

/-- The tokens found so far, last first, and what comes next. -/
structure Scan where
  tokens : List Token
  within : Within

namespace Scan

def start : Scan := ⟨[], .gap⟩

/-- Reads the first character of a token, or a space. -/
def enter (tokens : List Token) (c : Char) : Option Scan :=
  if isSpace c then some ⟨tokens, .gap⟩
  else if c = '"' then some ⟨tokens, .quotes []⟩
  else if c.isDigit || c = '-' then some ⟨tokens, .number [c]⟩
  else if c.isLower then some ⟨tokens, .letters [c]⟩
  else (Mark.ofChar? c).map fun m => ⟨.mark m :: tokens, .gap⟩

/-- All tokens found if the text ends here. -/
def finish (s : Scan) : Option (List Token) :=
  match s.within with
  | .gap => some s.tokens
  | .letters found => (Word.ofChars? found.reverse).map fun w => .word w :: s.tokens
  | .number found => (Numeral.read? found.reverse).map fun n => .number n :: s.tokens
  | _ => none

def hexValue? (c : Char) : Option Nat :=
  if c.isDigit then some (c.toNat - '0'.toNat)
  else if 'a' ≤ c ∧ c ≤ 'f' then some (c.toNat - 'a'.toNat + 10)
  else if 'A' ≤ c ∧ c ≤ 'F' then some (c.toNat - 'A'.toNat + 10)
  else none

/-- Reads one character. -/
def step (s : Scan) (c : Char) : Option Scan :=
  match s.within with
  | .gap => enter s.tokens c
  | .letters found =>
    if c.isLower then some ⟨s.tokens, .letters (c :: found)⟩
    else s.finish.bind (enter · c)
  | .number found =>
    if isNumberChar c then some ⟨s.tokens, .number (c :: found)⟩
    else s.finish.bind (enter · c)
  | .quotes found =>
    if c = '"' then some ⟨.quoted found.reverse :: s.tokens, .gap⟩
    else if c = '\\' then some ⟨s.tokens, .escape found⟩
    else if c.toNat < 0x20 then none
    else some ⟨s.tokens, .quotes (.scalar c :: found)⟩
  | .escape found =>
    if c = 'u' then some ⟨s.tokens, .unit found 0 3⟩
    else (CodePoint.unletter? c).map fun x => ⟨s.tokens, .quotes (.scalar x :: found)⟩
  | .unit found value left =>
    (hexValue? c).map fun d =>
      match left with
      | 0 => ⟨s.tokens, .quotes (CodePoint.ofUnit (16 * value + d) :: found)⟩
      | left + 1 => ⟨s.tokens, .unit found (16 * value + d) left⟩

end Scan

/-- The tokens of a text. -/
def tokens? (text : List Char) : Option (List Token) :=
  ((text.foldlM Scan.step Scan.start).bind Scan.finish).map List.reverse

end OpeningHours.Json
