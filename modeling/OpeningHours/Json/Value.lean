import OpeningHours.Json.Token

/-!
JSON values. A text stands for the value whose tokens it holds; `tokens` writes a value without spaces,
and the builder finds the value of a list of tokens, with an explicit stack of the arrays and objects
that are still open. Objects keep their members in order, repeated names included.
-/

namespace OpeningHours.Json

open Decimal

inductive Value where
  | null
  | bool (b : Bool)
  | number (n : Numeral)
  | string (content : List CodePoint)
  | array (items : List Value)
  | object (members : List (List CodePoint × Value))
deriving Inhabited

namespace Value

/-! ### Writing -/

mutual

def tokens : Value → List Token
  | null => [.word .null]
  | bool b => [.word (if b then .true else .false)]
  | number n => [.number n]
  | string content => [.quoted content]
  | array [] => [.mark .openArray, .mark .closeArray]
  | array (v :: vs) => .mark .openArray :: v.tokens ++ itemTokens vs
  | object [] => [.mark .openObject, .mark .closeObject]
  | object ((k, v) :: ms) =>
    .mark .openObject :: .quoted k :: .mark .colon :: v.tokens ++ memberTokens ms

/-- The items after the first, and the end of the array. -/
def itemTokens : List Value → List Token
  | [] => [.mark .closeArray]
  | v :: vs => .mark .comma :: v.tokens ++ itemTokens vs

/-- The members after the first, and the end of the object. -/
def memberTokens : List (List CodePoint × Value) → List Token
  | [] => [.mark .closeObject]
  | (k, v) :: ms => .mark .comma :: .quoted k :: .mark .colon :: v.tokens ++ memberTokens ms

end

def chars (v : Value) : List Char := v.tokens.flatMap Token.chars

/-- The value as a text without spaces. -/
def render (v : Value) : String := String.ofList v.chars

/-! ### Reading -/

/-- Something open; items and members found so far are kept last first. -/
inductive Frame where
  | array (items : List Value)
  | object (members : List (List CodePoint × Value))
  | member (members : List (List CodePoint × Value)) (name : List CodePoint)

/-- What may come next. -/
inductive Next where
  | value
  | valueOrClose
  | name
  | nameOrClose
  | colon
  | commaOrClose
  | nothing (v : Value)

structure Build where
  stack : List Frame
  next : Next

namespace Build

def start : Build := ⟨[], .value⟩

/-- A value is complete. -/
def place (v : Value) : List Frame → Option Build
  | [] => some ⟨[], .nothing v⟩
  | .array items :: fs => some ⟨.array (v :: items) :: fs, .commaOrClose⟩
  | .member members name :: fs => some ⟨.object ((name, v) :: members) :: fs, .commaOrClose⟩
  | .object _ :: _ => none

/-- Reads the first token of a value. -/
def enter (fs : List Frame) : Token → Option Build
  | .word .null => place .null fs
  | .word .true => place (.bool true) fs
  | .word .false => place (.bool false) fs
  | .number n => place (.number n) fs
  | .quoted content => place (.string content) fs
  | .mark .openArray => some ⟨.array [] :: fs, .valueOrClose⟩
  | .mark .openObject => some ⟨.object [] :: fs, .nameOrClose⟩
  | _ => none

/-- Reads the end of an array or an object. -/
def close : List Frame → Token → Option Build
  | .array items :: fs, .mark .closeArray => place (.array items.reverse) fs
  | .object members :: fs, .mark .closeObject => place (.object members.reverse) fs
  | _, _ => none

/-- Reads the name of a member. -/
def name : List Frame → Token → Option Build
  | .object members :: fs, .quoted k => some ⟨.member members k :: fs, .colon⟩
  | _, _ => none

/-- Reads a comma. -/
def comma : List Frame → Option Build
  | .array items :: fs => some ⟨.array items :: fs, .value⟩
  | .object members :: fs => some ⟨.object members :: fs, .name⟩
  | _ => none

/-- Reads one token. -/
def step (b : Build) (t : Token) : Option Build :=
  match b.next with
  | .value => enter b.stack t
  | .valueOrClose => if t = .mark .closeArray then close b.stack t else enter b.stack t
  | .name => name b.stack t
  | .nameOrClose => if t = .mark .closeObject then close b.stack t else name b.stack t
  | .colon => if t = .mark .colon then some ⟨b.stack, .value⟩ else none
  | .commaOrClose => if t = .mark .comma then comma b.stack else close b.stack t
  | .nothing _ => none

def finish (b : Build) : Option Value :=
  match b.next with
  | .nothing v => some v
  | _ => none

end Build

/-- The value of a list of tokens. -/
def ofTokens? (ts : List Token) : Option Value :=
  (ts.foldlM Build.step Build.start).bind Build.finish

def ofChars? (text : List Char) : Option Value := (tokens? text).bind ofTokens?

/-- The value that a text stands for. -/
def parse? (text : String) : Option Value := ofChars? text.toList

end Value

end OpeningHours.Json
