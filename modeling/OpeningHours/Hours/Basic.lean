import OpeningHours.Interval
import OpeningHours.Week

/-!
Weekly opening hours as a list of intervals, in any order, overlapping or not. What such a list means
is the set of seconds of the cycle that it covers: `Covers` reads every interval modulo the week.
Whether hours are open at a moment, and when they next open or close, is answered for hours in normal
form. A moment is any second, before the first Monday or many weeks after it; answers lie on the
timeline of the question. They are exact here; `Stored` has the same answers computed in words.
-/

namespace OpeningHours

/-- Opening hours on the weekly cycle. -/
abbrev Hours := List Interval

namespace Hours

/-- Some interval holds second `t`, up to whole weeks. -/
def Covers (h : Hours) (t : Int) : Prop := ∃ i ∈ h, ∃ k : Int, t + k * week ∈ i

/-- Some interval holds second `t` itself. -/
def Holds (h : Hours) (t : Int) : Prop := ∃ i ∈ h, t ∈ i

instance (h : Hours) (t : Int) : Decidable (h.Holds t) := inferInstanceAs (Decidable (∃ i ∈ h, _))

/-- Open at any time at all. -/
def isActive (h : Hours) : Bool := h.any (·.Proper)

/-- The sum of all durations. -/
def total (h : Hours) : Int := h.foldr (fun i n => i.duration + n) 0

def shift (h : Hours) (k : Int) : Hours := h.map (·.shift k)

/-- Some single interval is a week long or longer. -/
def hasFullWeek (h : Hours) : Bool := h.any (week ≤ ·.duration)

/-- Each interval with seconds, and its copies one week earlier and one week later. -/
def images (h : Hours) : Hours :=
  (h.filter (·.Proper)).flatMap fun i => [i.shift (-week), i, i.shift week]

theorem holds_append {g h : Hours} {t : Int} : (g ++ h).Holds t ↔ g.Holds t ∨ h.Holds t := by
  simp only [Holds, List.mem_append]
  constructor
  · rintro ⟨i, hi | hi, ht⟩
    · exact .inl ⟨i, hi, ht⟩
    · exact .inr ⟨i, hi, ht⟩
  · rintro (⟨i, hi, ht⟩ | ⟨i, hi, ht⟩)
    · exact ⟨i, .inl hi, ht⟩
    · exact ⟨i, .inr hi, ht⟩

theorem covers_iff_holds {h : Hours} {t : Int} : h.Covers t ↔ ∃ k : Int, h.Holds (t + k * week) :=
  ⟨fun ⟨i, hi, k, hk⟩ => ⟨k, i, hi, hk⟩, fun ⟨k, i, hi, hk⟩ => ⟨i, hi, k, hk⟩⟩

/-! ### Moments -/

/-- Open at second `t` of the cycle; an interval may run past the end of the week. -/
def isOpenAt (h : Hours) (t : Int) : Bool :=
  h.any fun i => t % week ∈ i ∨ t % week + week ∈ i

/-- The first second from `t` on that is open. -/
def nextOpen? (h : Hours) (t : Int) : Option Int :=
  let s := t % week
  if h.images.Holds s then some t
  else ((h.images.map (·.start)).filter (s < ·)).min?.map (t - s + ·)

/-- The first second after `t` at which an opening ends; none for hours that are never open or
always open. -/
def nextClose? (h : Hours) (t : Int) : Option Int :=
  if !h.isActive || week ≤ h.total then none
  else
    let s := t % week
    ((h.images.map (·.stop)).filter fun e => s < e && !h.isOpenAt e).min?.map (t - s + ·)

end Hours

end OpeningHours
