import OpeningHours.Clock
import OpeningHours.Hours.Basic

/-!
Stored intervals, and what is computed of them in words. The ends of a stored interval are words of 32 bits, and so
is every moment that is asked about or told; durations have 64 bits. Sums, differences and products are those of the
exact numbers, and the computation stops where one does not fit its word.
-/

namespace OpeningHours

/-! ### Words -/

/-- An integer that a stored interval can hold. -/
def Fits (k : Int) : Prop := -2147483648 ≤ k ∧ k ≤ 2147483647

instance (k : Int) : Decidable (Fits k) := inferInstanceAs (Decidable (_ ∧ _))

/-- A number that does not fit the word it is computed for. -/
structure Overflow where
  exact : Int
deriving DecidableEq, Repr

/-- A number as a word of 32 bits, if it fits. -/
def word (k : Int) : Except Overflow Int32 := if Fits k then .ok (.ofInt k) else .error ⟨k⟩

/-- The seconds in a week as a word. -/
def weekWord : Int32 := 604800

/-- The place in the week: the remainder, which has the sign of `t`, and a week more if it is negative. -/
def wordInWeek (t : Int32) : Int32 := if t % weekWord < 0 then t % weekWord + weekWord else t % weekWord

/-- An interval as it is stored. -/
structure Stored where
  start : Int32
  stop : Int32
deriving DecidableEq, Repr

namespace Stored

/-- The interval that is stored. -/
def interval (i : Stored) : Interval := ⟨i.start.toInt, i.stop.toInt⟩

/-- The hours that are stored. -/
def hours (l : List Stored) : Hours := l.map interval

/-- Hours as they are stored, if all ends fit. -/
def ofHours (h : Hours) : List Stored := h.map fun i => ⟨.ofInt i.start, .ofInt i.stop⟩

/-- The number of seconds held, in 64 bits. -/
def duration (i : Stored) : Int64 := if i.start < i.stop then i.stop.toInt64 - i.start.toInt64 else 0

/-- Both ends moved by `k` seconds. -/
def shift (i : Stored) (k : Int32) : Except Overflow Stored := do
  return ⟨← word (i.start.toInt + k.toInt), ← word (i.stop.toInt + k.toInt)⟩

/-! ### Reduction onto the week -/

/-- `Hours.move` in words. -/
def move (i : Stored) : Except Overflow Stored := do
  let start := wordInWeek i.start
  return ⟨start, ← word (start.toInt + i.duration.toInt32.toInt)⟩

/-- `Hours.pieces` in words. -/
def pieces (i : Stored) : Except Overflow (List Stored) := do
  let j ← i.move
  if weekWord < j.stop then
    return [⟨j.start, weekWord⟩, ⟨0, ← word (j.stop.toInt - weekWord.toInt)⟩]
  else
    return [j]

/-- `Hours.reduce?` in words, one interval after the other until one fills the week. -/
def reduce : List Stored → Except Overflow (Option (List Stored))
  | [] => return some []
  | i :: rest => do
    if i.start < i.stop then
      if weekWord.toInt64 ≤ i.duration then
        return none
      else
        let front ← i.pieces
        let back ← reduce rest
        return back.map (front ++ ·)
    else
      reduce rest

/-! ### Moments -/

def holds (i : Stored) (t : Int32) : Bool := i.start ≤ t && t < i.stop

/-- `Hours.isOpenAt` in words: two weeks fit a word, so nothing can overflow. -/
def isOpenAt (l : List Stored) (t : Int32) : Bool :=
  let s := wordInWeek t
  l.any fun i => i.holds s || i.holds (s + weekWord)

/-- An interval with seconds, and its copies one week earlier and one week later. -/
def images (i : Stored) : Except Overflow (List Stored) := do
  if i.start < i.stop then
    return [← i.shift (-weekWord), ← i.shift 0, ← i.shift weekWord]
  else
    return []

/-- The starts of images after second `s`, unless there is an image that holds `s`; what stands behind that one in
the list is not looked at. -/
def startsAfter? (s : Int32) : List Stored → Except Overflow (Option (List Int32))
  | [] => return some []
  | i :: rest => do
    let copies ← i.images
    if copies.any (·.holds s) then
      return none
    else
      let later ← startsAfter? s rest
      return later.map ((copies.map (·.start)).filter (s < ·) ++ ·)

/-- A moment that was found, as a word. -/
def told : Option Int → Except Overflow (Option Int32)
  | some u => return some (← word u)
  | none => return none

/-- `Hours.nextOpen?` in words. -/
def nextOpen (l : List Stored) (t : Int32) : Except Overflow (Option Int32) := do
  let s := wordInWeek t
  let monday ← word (t.toInt - s.toInt)
  match ← startsAfter? s l with
  | some starts => told ((starts.map (·.toInt)).min?.map (monday.toInt + ·))
  | none => return some t

/-- The sum of all durations, in 64 bits. -/
def total (l : List Stored) : Int64 := l.foldr (fun i n => i.duration + n) 0

/-- `Hours.nextClose?` in words. -/
def nextClose (l : List Stored) (t : Int32) : Except Overflow (Option Int32) := do
  if !(l.any fun i => i.start < i.stop) || weekWord.toInt64 ≤ total l then
    return none
  else
    let s := wordInWeek t
    let monday ← word (t.toInt - s.toInt)
    let copies ← l.mapM images
    let ends := (copies.flatten.map (·.stop)).filter fun e => s < e && !isOpenAt l e
    told ((ends.map (·.toInt)).min?.map (monday.toInt + ·))

/-! ### Text -/

/-- `Clock.midnightOf` in words. -/
def midnightOf (t : Int32) : Except Overflow Int32 := word (Clock.midnightOf t.toInt)

/-- `Clock.time` in words. -/
def time (midnight t : Int32) : Except Overflow (List Char) := do
  return Clock.time 0 (← word (t.toInt - midnight.toInt)).toInt

/-- `Clock.momentChars` in words. -/
def momentChars (t : Int32) : Except Overflow (List Char) := do
  let clock ← time (← midnightOf t) t
  return (Weekday.ofMoment t.toInt).shortName.toList ++ ' ' :: clock

/-- `Clock.momentText` in words. -/
def momentText (t : Int32) : Except Overflow String := do
  return String.ofList (← momentChars t)

/-- `Interval.stopChars` in words. -/
def stopChars (i : Stored) : Except Overflow (List Char) := do
  let midnight ← midnightOf i.start
  let next ← word (midnight.toInt + day)
  if i.stop = next then return ['2', '4', ':', '0', '0'] else time midnight i.stop

/-- `Interval.text` in words. -/
def text (i : Stored) : Except Overflow String := do
  if i.start < i.stop then
    let stop ← i.stopChars
    return String.ofList ((← momentChars i.start) ++ '-' :: stop)
  else
    return "-"

end Stored

end OpeningHours
