import OpeningHours.Json.Record

/-!
Whom an automatic reply goes to. A chat is new or known, and with a contact or a stranger; a selection
picks whole kinds of chats and single users besides. An audience is either a selection, or everyone
outside one.
-/

namespace OpeningHours

open Json

inductive ChatKind where
  | new
  | known
  | contact
  | stranger
deriving DecidableEq, Repr

/-- A set of kinds. -/
structure ChatKinds where
  new : Bool
  known : Bool
  contact : Bool
  stranger : Bool
deriving DecidableEq, Repr

/-- What is known of a chat when a reply is due. -/
structure Chat where
  user : UInt64
  isNew : Bool
  isContact : Bool
deriving DecidableEq, Repr

/-- Chats of certain kinds, and those with certain users. -/
structure Selection where
  kinds : ChatKinds
  users : List UInt64
deriving DecidableEq, Repr

structure Audience where
  included : Selection
  excluded : Selection
  /-- everyone but `excluded`, whatever `included` says -/
  allButExcluded : Bool
deriving DecidableEq, Repr

namespace ChatKinds

def none : ChatKinds := ⟨false, false, false, false⟩

def has (k : ChatKinds) : ChatKind → Bool
  | .new => k.new
  | .known => k.known
  | .contact => k.contact
  | .stranger => k.stranger

/-- The members, in the order of their weights in `code`. -/
def toList (k : ChatKinds) : List ChatKind := [.new, .known, .contact, .stranger].filter k.has

def meets (k l : ChatKinds) : Bool := k.toList.any l.has

/-- The set as a number: kinds weigh 1, 2, 4 and 8. -/
def code (k : ChatKinds) : Nat :=
  k.new.toNat + 2 * k.known.toNat + 4 * k.contact.toNat + 8 * k.stranger.toNat

/-- The set with a given number; what goes beyond the four weights is ignored. -/
def ofCode (n : Nat) : ChatKinds := ⟨n.testBit 0, n.testBit 1, n.testBit 2, n.testBit 3⟩

theorem ofCode_code (k : ChatKinds) : ofCode k.code = k := by
  rcases k with ⟨_ | _, _ | _, _ | _, _ | _⟩ <;> decide

theorem code_lt (k : ChatKinds) : k.code < 16 := by
  rcases k with ⟨_ | _, _ | _, _ | _, _ | _⟩ <;> decide

end ChatKinds

/-- The two kinds that a chat is of. -/
def Chat.kinds (c : Chat) : ChatKinds := ⟨c.isNew, !c.isNew, c.isContact, !c.isContact⟩

namespace Selection

def empty : Selection := ⟨.none, []⟩

def holds (s : Selection) (c : Chat) : Bool := s.users.contains c.user || s.kinds.meets c.kinds

def toJson (s : Selection) : Value :=
  .record [("types", .ofInt s.kinds.code), ("list", .ofList (fun u => .ofInt u.toNat) s.users)]

def kinds? (v : Value) : Option ChatKinds := v.toUInt8?.map ChatKinds.ofCode

def user? (v : Value) : Option UInt64 := v.toUInt64?.map UInt64.ofNat

def ofJson? (v : Value) : Option Selection := do
  let fields ← v.fields? ["types", "list"]
  let kinds ← fields.optional? "types" .none kinds?
  let users ← fields.optional? "list" [] (Value.toList? user?)
  some ⟨kinds, users⟩

end Selection

namespace Audience

def includes (a : Audience) (c : Chat) : Bool :=
  if a.allButExcluded then !a.excluded.holds c else a.included.holds c

def toJson (a : Audience) : Value :=
  .record [("included", a.included.toJson), ("excluded", a.excluded.toJson),
    ("all_but_excluded", .bool a.allButExcluded)]

def ofJson? (v : Value) : Option Audience := do
  let fields ← v.fields? ["included", "excluded", "all_but_excluded"]
  let included ← fields.optional? "included" .empty Selection.ofJson?
  let excluded ← fields.optional? "excluded" .empty Selection.ofJson?
  let all ← fields.optional? "all_but_excluded" false Value.toBool?
  some ⟨included, excluded, all⟩

def render (a : Audience) : String := a.toJson.render

def parse : String → Except Fault Audience := Value.load ofJson?

end Audience

end OpeningHours
