import OpeningHours.Hours.Basic

/-!
The merged form and the normal form of hours. Merging is done on the plain timeline and knows nothing
of the week: it leaves intervals with seconds only, in ascending order, each ending before the next one
starts. Two intervals are joined only where they overlap or touch, so the seconds held stay the same.
For the normal form every interval is moved onto the week and cut at the seam between Sunday and
Monday, and the pieces are merged. A Monday piece of at most `spill` seconds that continues a Sunday
opening is then joined to it, as one interval that runs past the end of the week; a longer one stays
apart. Hours with an interval of a whole week normalize to the week itself.
-/

namespace OpeningHours.Hours

/-! ### The merged form -/

/-- Put one interval into a merged list, joining it with those it overlaps or touches. -/
def insert (x : Interval) : Hours → Hours
  | [] => [x]
  | y :: ys =>
    if x.stop < y.start then x :: y :: ys
    else if y.stop < x.start then y :: insert x ys
    else insert (x.hull y) ys

/-- The merged form. -/
def merge (h : Hours) : Hours := (h.filter (·.Proper)).foldr insert []

/-! ### The normal form -/

/-- An interval moved by whole weeks so that it starts inside the week. -/
def move (i : Interval) : Interval := ⟨i.start % week, i.start % week + i.duration⟩

/-- An interval shorter than a week, moved and cut at the end of the week. -/
def pieces (i : Interval) : Hours :=
  let j := move i
  if week < j.stop then [⟨j.start, week⟩, ⟨0, j.stop - week⟩] else [j]

/-- All intervals as pieces within the week, unless one of them fills the week alone. -/
def reduce? (h : Hours) : Option Hours :=
  if h.hasFullWeek then none else some ((h.filter (·.Proper)).flatMap pieces)

/-- Starts at the seam and ends there: at least two intervals, of which the first continues the last. -/
def MeetsAtSeam (h : Hours) : Prop :=
  2 ≤ h.length ∧ h.head?.map (·.start) = some 0 ∧ h.getLast?.map (·.stop) = some week

instance (h : Hours) : Decidable h.MeetsAtSeam := inferInstanceAs (Decidable (_ ∧ _ ∧ _))

/-- Join a short opening at the start of the week to the opening at its end. -/
def joinSeam : Hours → Hours
  | [] => []
  | first :: rest =>
    match rest.getLast? with
    | none => [first]
    | some last =>
      if first.start = 0 ∧ last.stop = week ∧ first.stop ≤ spill then
        rest.dropLast ++ [⟨last.start, first.stop + week⟩]
      else first :: rest

/-- The normal form: equal for two lists exactly when they cover the same seconds. -/
def normalize (h : Hours) : Hours :=
  match h.reduce? with
  | none => [⟨0, week⟩]
  | some h => joinSeam (merge h)

end OpeningHours.Hours
