import OpeningHours.Hours.Normal

/-!
One day of the week, seen and edited on its own. Seconds of a day count from its midnight. A day owns
the openings that start on it, up to `spill` seconds past the following midnight; that stretch is the
day's window. An opening that began earlier is not shown, however far it runs into the day, but clearing
or replacing the day cuts it too.
-/

namespace OpeningHours.Hours

/-- What a day can hold, counted from its midnight. -/
def localWindow : Interval := ⟨0, day + spill⟩

/-- What a day can hold, on the week. -/
def window (d : Weekday) : Interval := localWindow.shift d.midnight

/-- The openings that start on day `d`, counted from its midnight. Hours that are always open show
as the whole day. -/
def view (h : Hours) (d : Weekday) : Hours :=
  if h.hasFullWeek then [⟨0, day⟩]
  else
    let openings := h.images.filter fun i => d.midnight ≤ i.start ∧ i.start < d.midnight + day
    merge (openings.map fun i => (i.inter (window d)).shift (-d.midnight))

/-- Remove `cut` from every interval. -/
def diff (h : Hours) (cut : Interval) : Hours := h.flatMap (·.diff cut)

/-- Close the whole window of day `d`. -/
def clear (h : Hours) (d : Weekday) : Hours :=
  let w := window d
  ((((h.normalize).diff (w.shift (-week))).diff w).diff (w.shift week)).normalize

/-- The part of `h` that a day can hold, merged. -/
def clip (h : Hours) : Hours := (h.merge.map (·.inter localWindow)).filter (·.Proper)

/-- Put `openings`, counted from midnight, in place of the whole window of day `d`. -/
def replace (h : Hours) (d : Weekday) (openings : Hours) : Hours :=
  (h.clear d ++ openings.clip.shift d.midnight).normalize

end OpeningHours.Hours
