/-!
The content of quoted text. An escape names a 16-bit unit, and half of a surrogate pair is such a
unit too, so content is a list of code points in which a half may stand alone. It is text only if the
halves form pairs; `text?` decides that, and `ofText` is the content that holds a given text.
-/

namespace OpeningHours.Json

inductive CodePoint where
  | scalar (c : Char)
  /-- half of a pair: the first 1024 open one, the others close it -/
  | surrogate (half : Fin 2048)
deriving DecidableEq, Repr

namespace CodePoint

/-- The code point that a 16-bit unit stands for. -/
def ofUnit (u : Nat) : CodePoint :=
  if h : 0xD800 ≤ u ∧ u < 0xE000 then surrogate ⟨u - 0xD800, by omega⟩ else scalar (Char.ofNat u)

/-- The character that two halves stand for. -/
def ofPair (opening closing : Fin 2048) : Char :=
  Char.ofNat (0x10000 + opening.val * 1024 + (closing.val - 1024))

/-- The text, unless some half has no partner. -/
def text? : List CodePoint → Option (List Char)
  | [] => some []
  | scalar c :: s => (text? s).map (c :: ·)
  | surrogate a :: surrogate b :: s =>
    if a.val < 1024 ∧ 1024 ≤ b.val then (text? s).map (ofPair a b :: ·) else none
  | surrogate _ :: _ => none

def ofText (s : List Char) : List CodePoint := s.map scalar

theorem text?_ofText (s : List Char) : text? (ofText s) = some s := by
  induction s with
  | nil => rfl
  | cons c s ih =>
    show (text? (ofText s)).map (c :: ·) = _
    rw [ih]; rfl

def hexDigit (n : Nat) : Char := Nat.digitChar (n % 16)

/-- A 16-bit unit as an escape. -/
def unitEscape (u : Nat) : List Char :=
  ['\\', 'u', hexDigit (u / 4096), hexDigit (u / 256), hexDigit (u / 16), hexDigit u]

/-- The letter that stands for a character after a backslash. -/
def letter? : Char → Option Char
  | '"' => some '"'
  | '\\' => some '\\'
  | '\x08' => some 'b'
  | '\x0c' => some 'f'
  | '\n' => some 'n'
  | '\r' => some 'r'
  | '\t' => some 't'
  | _ => none

/-- The character that a letter after a backslash stands for. -/
def unletter? : Char → Option Char
  | '"' => some '"'
  | '\\' => some '\\'
  | '/' => some '/'
  | 'b' => some '\x08'
  | 'f' => some '\x0c'
  | 'n' => some '\n'
  | 'r' => some '\r'
  | 't' => some '\t'
  | _ => none

theorem unletter?_letter? {c l : Char} (h : letter? c = some l) : unletter? l = some c := by
  unfold letter? at h
  split at h <;> simp_all <;> subst h <;> rfl

/-- As it stands between quotes: only quotes, backslashes, control characters and lone halves are
escaped. -/
def chars : CodePoint → List Char
  | scalar c =>
    match letter? c with
    | some l => ['\\', l]
    | none => if c.toNat < 0x20 then unitEscape c.toNat else [c]
  | surrogate half => unitEscape (0xD800 + half.val)

end CodePoint

end OpeningHours.Json
