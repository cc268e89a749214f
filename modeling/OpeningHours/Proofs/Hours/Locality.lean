import OpeningHours.Proofs.Hours.View

/-!
A view read off coverage. Unless the hours are always open, a day shows a second just when an opening
starts on the day and coverage goes on to that second within the window; where the seam cuts an opening, it
ends one and starts another. So a view depends on no more than the coverage of its window and of one second
on either side of it, and an edit changes no view of a day that is at least two days away.
-/

namespace OpeningHours.Hours

/-- An opening starts at second `s` of day `d`: the second before is closed, or the seam cuts there. -/
def StartsAt (h : Hours) (d : Weekday) (s : Int) : Prop :=
  ¬ h.Covers (d.midnight + (s - 1)) ∨ h.MeetsAtSeam ∧ d.midnight + s = 0

/-- From second `s` of day `d` through second `u` nothing closes and no seam cuts. -/
def RunsThrough (h : Hours) (d : Weekday) (s u : Int) : Prop :=
  (∀ v, s ≤ v → v ≤ u → h.Covers (d.midnight + v)) ∧ (h.MeetsAtSeam → d.midnight + u < week)

namespace Canonical

variable {h : Hours} {d : Weekday} {s u : Int}

/-- The intervals that start on a day are the openings of the day. -/
theorem exists_start_iff_startsAt (hc : h.Canonical) (hfull : ¬ h.hasFullWeek = true) (h0 : 0 ≤ s)
    (hday : s < day) :
    (∃ i ∈ h, i.start = d.midnight + s) ↔ h.Covers (d.midnight + s) ∧ h.StartsAt d s := by
  have hd := d.midnight_bounds
  have hw : 0 ≤ d.midnight + s ∧ d.midnight + s < week := by
    simp only [week, day] at *
    omega
  rw [hc.exists_start_eq_iff hfull hw.1 hw.2, StartsAt,
    show d.midnight + (s - 1) = d.midnight + s - 1 by omega]

/-- An interval that starts on a day holds the seconds that its run reaches. -/
theorem mem_iff_runsThrough (hc : h.Canonical) (hfull : ¬ h.hasFullWeek = true) {i : Interval}
    (hi : i ∈ h) (hs : i.start = d.midnight + s) (hsu : s ≤ u) :
    d.midnight + u ∈ i ↔ h.RunsThrough d s u := by
  rw [hc.mem_iff_run hfull hi (by omega), hs]
  refine and_congr_left fun _ => ⟨fun hv v h0 h1 => hv _ (by omega) (by omega), fun hv v h0 h1 => ?_⟩
  have := hv (v - d.midnight) (by omega) (by omega)
  rwa [show d.midnight + (v - d.midnight) = v by omega] at this

theorem holds_view_iff_run (hc : h.Canonical) (hfull : ¬ h.hasFullWeek = true) :
    (h.view d).Holds u ↔ ∃ s, (0 ≤ s ∧ s < day ∧ s ≤ u ∧ u < day + spill) ∧
      h.StartsAt d s ∧ h.RunsThrough d s u := by
  rw [hc.holds_view hfull]
  constructor
  · rintro ⟨i, hi, h0, hday, hu, hspill⟩
    have hs : i.start = d.midnight + (i.start - d.midnight) := by omega
    have hsu := hu.1
    have hstart := (hc.exists_start_iff_startsAt hfull (by omega) (by omega)).1 ⟨i, hi, hs⟩
    exact ⟨_, by omega, hstart.2, (hc.mem_iff_runsThrough hfull hi hs (by omega)).1 hu⟩
  · rintro ⟨s, ⟨h0, hday, hsu, hspill⟩, hstart, hrun⟩
    have hopen := hrun.1 s (Int.le_refl s) hsu
    obtain ⟨i, hi, hs⟩ := (hc.exists_start_iff_startsAt hfull h0 hday).2 ⟨hopen, hstart⟩
    exact ⟨i, hi, by omega, by omega, (hc.mem_iff_runsThrough hfull hi hs hsu).2 hrun, hspill⟩

end Canonical

/-! ### Openings by day and second -/

section Openings

variable {h : Hours} {d : Weekday} {s u : Int}

/-- The seam cuts at the first second of Monday. -/
theorem startsAt_iff (h0 : 0 ≤ s) : h.StartsAt d s ↔
    ¬ h.Covers (d.midnight + s - 1) ∨ h.MeetsAtSeam ∧ d = Weekday.monday ∧ s = 0 := by
  have hd := d.midnight_bounds
  have hfirst : d.midnight + s = 0 ↔ d = Weekday.monday ∧ s = 0 := by
    rw [← Weekday.midnight_eq_zero_iff]
    omega
  rw [StartsAt, hfirst, show d.midnight + (s - 1) = d.midnight + s - 1 by omega]

/-- A run that the seam cuts is Sunday's, and it is cut at midnight. -/
theorem runsThrough_iff (hu : u < day + spill) : h.RunsThrough d s u ↔
    (∀ v, s ≤ v → v ≤ u → h.Covers (d.midnight + v)) ∧
      (h.MeetsAtSeam → d = Weekday.sunday → u < day) := by
  rw [RunsThrough, Weekday.midnight_add_lt_week_iff hu]

/-- A day shows a second just when the hours are open from some second of the day on through that one, and
closed just before or cut there by the seam; and where the seam cuts, Sunday ends at midnight. Its intervals
are proper and apart, they start on the day and end within its window. Hours that are always open show the
whole day. -/
theorem view_of_openings (h : Hours) (d : Weekday) :
    (¬ h.normalize.hasFullWeek = true → ∀ u, 0 ≤ u → u < day + spill →
      ((h.normalize.view d).Holds u ↔
        (∃ s, 0 ≤ s ∧ s < day ∧ s ≤ u ∧
          (∀ v, s ≤ v → v ≤ u → h.normalize.isOpenAt (d.midnight + v) = true) ∧
          (¬ h.normalize.isOpenAt (d.midnight + s - 1) = true ∨
            h.normalize.MeetsAtSeam ∧ d = Weekday.monday ∧ s = 0)) ∧
        (h.normalize.MeetsAtSeam → d = Weekday.sunday → u < day))) ∧
    (h.normalize.hasFullWeek = true → h.normalize.view d = [⟨0, day⟩]) ∧
    (h.normalize.view d).Separated ∧
    ∀ i ∈ h.normalize.view d, 0 ≤ i.start ∧ i.start < day ∧ i.stop ≤ day + spill := by
  have hc := canonical_normalize h
  refine ⟨fun hfull u _ hu => ?_, fun hfull => if_pos hfull, separated_view _ d, hc.view_bounds d⟩
  simp only [hc.isOpenAt_iff_covers]
  rw [hc.holds_view_iff_run hfull]
  constructor
  · rintro ⟨s, ⟨h0, hday, hsu, -⟩, hstart, hrun⟩
    obtain ⟨hopen, hseam⟩ := (runsThrough_iff hu).1 hrun
    exact ⟨⟨s, h0, hday, hsu, hopen, (startsAt_iff h0).1 hstart⟩, hseam⟩
  · rintro ⟨⟨s, h0, hday, hsu, hopen, hstart⟩, hseam⟩
    exact ⟨s, ⟨h0, hday, hsu, hu⟩, (startsAt_iff h0).2 hstart, (runsThrough_iff hu).2 ⟨hopen, hseam⟩⟩

/-- A night from Sunday 22:00 to Monday 08:00 is open at both ends of what Sunday could hold, but the seam
cuts it: Sunday does not show 25:00, and Monday shows 01:00. -/
theorem view_of_openings_night :
    ¬ ((Hours.normalize [⟨597600, 633600⟩]).view Weekday.sunday).Holds 90000 ∧
      ((Hours.normalize [⟨597600, 633600⟩]).view Weekday.monday).Holds 3600 ∧
      (Hours.normalize [⟨-5, week⟩]).view Weekday.monday = [⟨0, day⟩] := by
  have hm : (Hours.normalize [⟨597600, 633600⟩]).MeetsAtSeam := by decide
  have hnight := fun d => (view_of_openings [⟨597600, 633600⟩] d).1 (by decide)
  refine ⟨fun hu => ?_, ?_, (view_of_openings [⟨-5, week⟩] Weekday.monday).2.1 (by decide)⟩
  · have hday := ((hnight Weekday.sunday 90000 (by decide) (by decide)).1 hu).2 hm rfl
    exact absurd hday (by decide)
  · refine (hnight Weekday.monday 3600 (by decide) (by decide)).2 ⟨⟨0, ?_⟩, by decide⟩
    refine ⟨by decide, by decide, by decide, fun v h0 hv => ?_, .inr ⟨hm, rfl, rfl⟩⟩
    have hmonday : Weekday.monday.midnight = 0 := rfl
    rw [(canonical_normalize _).isOpenAt_iff_covers, covers_normalize, hmonday]
    refine ⟨⟨597600, 633600⟩, List.mem_singleton_self _, 1, ?_⟩
    simp only [Interval.mem_iff, week]
    omega

end Openings

/-! ### Coverage around a day -/

/-- Two lists cover the same seconds in the window of day `d`, just before it and just after it. -/
def AgreeAround (g h : Hours) (d : Weekday) : Prop :=
  ∀ v, -1 ≤ v → v ≤ day + spill → (g.Covers (d.midnight + v) ↔ h.Covers (d.midnight + v))

variable {g h : Hours} {d : Weekday}

section Agree

variable (ha : g.AgreeAround h d) (hg : g.Canonical) (hh : h.Canonical)
  (gfull : ¬ g.hasFullWeek = true) (hfull : ¬ h.hasFullWeek = true)

include ha hg hh gfull hfull

/-- Around Monday, and around Sunday, lies all that decides whether the seam cuts an opening. -/
theorem meetsAtSeam_congr (hd : d.midnight = 0 ∨ d.midnight = 6 * day) :
    g.MeetsAtSeam ↔ h.MeetsAtSeam := by
  rw [hg.meetsAtSeam_iff_covers gfull, hh.meetsAtSeam_iff_covers hfull]
  refine forall_congr' fun t => imp_congr_right fun h1 => imp_congr_right fun ht => ?_
  rcases hd with hd | hd
  · have := ha t h1 (by simp only [day, spill] at *; omega)
    rwa [hd, Int.zero_add] at this
  · have := ha (t + day) (by simp only [day] at *; omega) (by omega)
    rw [hd, show 6 * day + (t + day) = t + 1 * week by simp only [week, day]; omega] at this
    rwa [covers_add_week, covers_add_week] at this

theorem startsAt_congr {s : Int} (h0 : 0 ≤ s) (hday : s < day) : g.StartsAt d s ↔ h.StartsAt d s := by
  have hd := d.midnight_bounds
  refine or_congr (not_congr (ha _ (by omega) ?_)) (and_congr_left fun hs => ?_)
  · simp only [day, spill] at *
    omega
  · exact meetsAtSeam_congr ha hg hh gfull hfull (.inl (by omega))

theorem runsThrough_congr {s u : Int} (h0 : 0 ≤ s) (hu : u < day + spill) :
    g.RunsThrough d s u ↔ h.RunsThrough d s u := by
  refine and_congr ?_ ?_
  · refine forall_congr' fun v => imp_congr_right fun hs => imp_congr_right fun hv => ?_
    exact ha v (by omega) (by omega)
  · -- only Sunday's window reaches the end of the week
    by_cases hlt : d.midnight + u < week
    · exact iff_of_true (fun _ => hlt) fun _ => hlt
    · have hd := d.eq_sunday_of_lt (by simp only [week, day, spill] at *; omega)
      exact imp_congr_left (meetsAtSeam_congr ha hg hh gfull hfull (.inr (by rw [hd]; rfl)))

/-- A view depends only on the coverage around the day. -/
theorem view_congr : g.view d = h.view d := by
  apply (separated_view g d).ext (separated_view h d)
  intro u
  rw [hg.holds_view_iff_run gfull, hh.holds_view_iff_run hfull]
  refine exists_congr fun s => and_congr_right fun ⟨h0, hday, _, hu⟩ => and_congr ?_ ?_
  · exact startsAt_congr ha hg hh gfull hfull h0 hday
  · exact runsThrough_congr ha hg hh gfull hfull h0 hu

end Agree

/-! ### Days apart -/

/-- What lies around a day is out of the window of any day at least two days away. -/
theorem not_inWindow_around {o : Weekday} (hlo : 2 ≤ (o - d).val) (hhi : (o - d).val ≤ 5) {v : Int}
    (h1 : -1 ≤ v) (hv : v ≤ day + spill) : ¬ d.InWindow (o.midnight + v) := by
  have hd := d.isLt
  have ho := o.isLt
  rw [Fin.val_sub] at hlo hhi
  simp only [Weekday.InWindow, Weekday.midnight, week, day, spill] at *
  omega

/-- A day that was cleared is closed at its midnight. -/
theorem not_hasFullWeek_clear (h : Hours) (d : Weekday) : ¬ (h.clear d).hasFullWeek = true := by
  intro hfull
  have hmid := (covers_clear.1 (covers_of_hasFullWeek hfull d.midnight)).2
  refine hmid ?_
  rw [Weekday.InWindow, Int.sub_self]
  decide

/-- Replacing or clearing a day changes no view of a day that is at least two days away, whatever the new
openings are, as long as the hours are open at all times neither before nor after. -/
theorem view_of_apart (h r : Hours) {d o : Weekday} (hlo : 2 ≤ (o - d).val) (hhi : (o - d).val ≤ 5)
    (hfull : ¬ h.normalize.hasFullWeek = true) :
    (¬ (h.replace d r).hasFullWeek = true → (h.replace d r).view o = h.normalize.view o) ∧
      (h.clear d).view o = h.normalize.view o := by
  have hn := canonical_normalize h
  constructor
  · intro rfull
    refine view_congr (fun v h1 hv => ?_) (canonical_replace h d r) hn rfull hfull
    rw [covers_replace, if_neg (not_inWindow_around hlo hhi h1 hv), covers_normalize]
  · refine view_congr (fun v h1 hv => ?_) (canonical_clear h d) hn (not_hasFullWeek_clear h d) hfull
    rw [covers_clear, covers_normalize]
    exact and_iff_left (not_inWindow_around hlo hhi h1 hv)

/-- Sunday night runs into Monday and is cut at the seam. Replacing Friday with hours that run into
Saturday leaves Monday's part of it as it was, and so does clearing Friday. -/
theorem view_of_apart_night :
    (Hours.replace [⟨590400, 633600⟩] 4 [⟨79200, 108000⟩]).view Weekday.monday = [⟨0, 28800⟩] ∧
      (Hours.clear [⟨590400, 633600⟩] 4).view Weekday.monday = [⟨0, 28800⟩] := by
  have happart := view_of_apart [⟨590400, 633600⟩] [⟨79200, 108000⟩] (d := 4) (o := Weekday.monday)
    (by decide) (by decide) (by decide)
  have hview : (Hours.normalize [⟨590400, 633600⟩]).view Weekday.monday = [⟨0, 28800⟩] := by decide
  exact ⟨(happart.1 (by decide)).trans hview, happart.2.trans hview⟩

end OpeningHours.Hours
