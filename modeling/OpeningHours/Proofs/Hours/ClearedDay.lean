import OpeningHours.Proofs.Hours.Rotation

/-!
What clearing a day does to the days around it. The day itself shows nothing afterwards. The day before keeps
its openings, each up to midnight at most. The day after loses its first `spill` seconds; from then on it
shows what it showed, and also what earlier openings had run through: where they come out of the cleared
window an opening starts now. The midnight between Sunday and Monday is no exception.
-/

namespace OpeningHours

namespace Weekday

theorem sub_one_add_one : ∀ d : Weekday, d - 1 + 1 = d := by decide

theorem midnight_succ (d : Weekday) : (d + 1).midnight = (d.midnight + day) % week := midnight_add d 1

/-- From the next midnight on, a day's window belongs to the next day too. -/
theorem not_inWindow_succ_iff {d : Weekday} {v : Int} (h1 : -1 ≤ v) (hv : v < day + spill) :
    ¬ (d + 1).InWindow (d.midnight + v) ↔ v < day := by
  rw [InWindow, midnight_succ]
  simp only [week, day, spill] at *
  omega

/-- Of the day after, a window takes the first `spill` seconds. -/
theorem not_inWindow_midnight_succ_iff {d : Weekday} {v : Int} (h1 : -1 ≤ v) (hv : v ≤ day + spill) :
    ¬ d.InWindow ((d + 1).midnight + v) ↔ spill ≤ v := by
  rw [InWindow, midnight_succ]
  simp only [week, day, spill] at *
  omega

end Weekday

namespace Hours

variable {h : Hours} {d : Weekday} {s u v : Int}

theorem clear_normalize (h : Hours) (d : Weekday) : h.normalize.clear d = h.clear d := by
  apply (canonical_clear _ d).ext (canonical_clear h d)
  intro t
  rw [covers_clear, covers_clear, covers_normalize]

/-- A cleared day shows nothing. -/
theorem view_clear_self (h : Hours) (d : Weekday) : (h.clear d).view d = [] := by
  have hc := canonical_clear h d
  apply (separated_view _ d).ext separated_nil
  intro u
  refine iff_of_false (fun hu => ?_) (holds_nil u)
  have hb := hc.holds_view_bounds hu
  apply (covers_clear.1 (hc.covers_of_holds_view hu)).2
  simp only [Weekday.InWindow, week, day, spill] at *
  omega

/-- Clearing a day leaves no hours that are always open, so that every view is read off coverage. -/
theorem holds_view_clear_iff_run {e : Weekday} : ((h.clear e).view d).Holds u ↔
    ∃ s, (0 ≤ s ∧ s < day ∧ s ≤ u ∧ u < day + spill) ∧
      (h.clear e).StartsAt d s ∧ (h.clear e).RunsThrough d s u :=
  (canonical_clear h e).holds_view_iff_run (not_hasFullWeek_clear h e)

theorem meetsAtSeam_clear_iff {e : Weekday} :
    (h.clear e).MeetsAtSeam ↔ ∀ t, -1 ≤ t → t ≤ spill → (h.clear e).Covers t :=
  (canonical_clear h e).meetsAtSeam_iff_covers (not_hasFullWeek_clear h e)

/-! ### The day before -/

theorem holds_map_min_stop {e : Int} :
    Holds (h.map fun i => ⟨i.start, min i.stop e⟩) u ↔ h.Holds u ∧ u < e := by
  simp only [Holds, List.mem_map, exists_exists_and_eq_and, Interval.mem_iff]
  constructor
  · rintro ⟨i, hi, hs, he⟩
    exact ⟨⟨i, hi, hs, by omega⟩, by omega⟩
  · rintro ⟨⟨i, hi, hs, he⟩, hu⟩
    exact ⟨i, hi, hs, by omega⟩

theorem covers_clear_succ (h1 : -1 ≤ v) (hv : v < day + spill) :
    (h.clear (d + 1)).Covers (d.midnight + v) ↔ h.Covers (d.midnight + v) ∧ v < day := by
  rw [covers_clear, Weekday.not_inWindow_succ_iff h1 hv]

section Before

variable (hc : h.Canonical) (hfull : ¬ h.hasFullWeek = true)

include hc hfull

/-- Clearing Tuesday leaves the seam as it is. -/
theorem meetsAtSeam_clear_succ (hd : d.midnight = 0) : (h.clear (d + 1)).MeetsAtSeam ↔ h.MeetsAtSeam := by
  rw [meetsAtSeam_clear_iff, hc.meetsAtSeam_iff_covers hfull]
  refine forall_congr' fun t => imp_congr_right fun h1 => imp_congr_right fun ht => ?_
  have hday : t < day := by
    simp only [day, spill] at *
    omega
  have hcov := covers_clear_succ (h := h) (d := d) h1 (Int.lt_trans hday (by decide))
  rw [hd, Int.zero_add] at hcov
  rw [hcov]
  exact and_iff_left hday

theorem startsAt_clear_succ (h0 : 0 ≤ s) (hday : s < day) :
    (h.clear (d + 1)).StartsAt d s ↔ h.StartsAt d s := by
  have hd := d.midnight_bounds
  refine or_congr (not_congr ?_) (and_congr_left fun hs => meetsAtSeam_clear_succ hc hfull (by omega))
  rw [covers_clear_succ (by omega) (by simp only [day, spill] at *; omega)]
  exact and_iff_left (by omega)

omit hc hfull in
/-- A run of the day before ends at midnight. -/
theorem runsThrough_clear_succ (h0 : 0 ≤ s) (hsu : s ≤ u) (hu : u < day + spill) :
    (h.clear (d + 1)).RunsThrough d s u ↔ h.RunsThrough d s u ∧ u < day := by
  have hcov : ∀ v, s ≤ v → v ≤ u →
      ((h.clear (d + 1)).Covers (d.midnight + v) ↔ h.Covers (d.midnight + v) ∧ v < day) :=
    fun v hs hv => covers_clear_succ (by omega) (by omega)
  rw [runsThrough_iff hu, runsThrough_iff hu]
  constructor
  · rintro ⟨hopen, -⟩
    have hday := ((hcov u hsu (Int.le_refl u)).1 (hopen u hsu (Int.le_refl u))).2
    exact ⟨⟨fun v hs hv => ((hcov v hs hv).1 (hopen v hs hv)).1, fun _ _ => hday⟩, hday⟩
  · rintro ⟨⟨hopen, -⟩, hday⟩
    exact ⟨fun v hs hv => (hcov v hs hv).2 ⟨hopen v hs hv, by omega⟩, fun _ _ => hday⟩

/-- The day before shows what it showed, up to midnight. -/
theorem view_clear_succ :
    (h.clear (d + 1)).view d = (h.view d).map fun i => ⟨i.start, min i.stop day⟩ := by
  apply (separated_view _ d).ext ((separated_view h d).map ?_ ?_)
  · intro u
    rw [holds_map_min_stop, holds_view_clear_iff_run, hc.holds_view_iff_run hfull, ← exists_and_right]
    refine exists_congr fun s => Iff.trans (and_congr_right fun ⟨h0, hday, hsu, hu⟩ => ?_) and_assoc.symm
    rw [startsAt_clear_succ hc hfull h0 hday, runsThrough_clear_succ h0 hsu hu, and_assoc]
  · intro i hi
    have hp := (separated_view h d).proper i hi
    have hb := hc.view_bounds d i hi
    simp only [Interval.Proper] at *
    omega
  · intro i _ j _ hij
    dsimp only
    omega

end Before

/-! ### The day after -/

theorem covers_clear_midnight_succ (h1 : -1 ≤ v) (hv : v ≤ day + spill) :
    (h.clear d).Covers ((d + 1).midnight + v) ↔ h.Covers ((d + 1).midnight + v) ∧ spill ≤ v := by
  rw [covers_clear, Weekday.not_inWindow_midnight_succ_iff h1 hv]

/-- The first `spill` seconds of the day after are closed. -/
theorem not_holds_view_clear (hu : u < spill) : ¬ ((h.clear d).view (d + 1)).Holds u := by
  intro hv
  have hb := (canonical_clear h d).holds_view_bounds hv
  have hopen := (canonical_clear h d).covers_of_holds_view hv
  have hspill := ((covers_clear_midnight_succ (by omega) (by omega)).1 hopen).2
  omega

/-- From `spill` on, the day after has the openings that it had, and perhaps a new one just there. -/
theorem startsAt_clear (hs : spill ≤ s) (hday : s < day) :
    (h.clear d).StartsAt (d + 1) s ↔ s = spill ∨ h.StartsAt (d + 1) s := by
  have hd := (d + 1).midnight_bounds
  have hlater : ¬ (d + 1).midnight + s = 0 := by
    simp only [spill] at hs
    omega
  have hspill : ¬ spill ≤ s - 1 ↔ s = spill := by omega
  simp only [StartsAt, hlater, and_false, or_false]
  rw [covers_clear_midnight_succ (by simp only [spill] at hs; omega) (by simp only [spill]; omega),
    not_and_or, hspill, or_comm]

section After

variable (hc : h.Canonical) (hfull : ¬ h.hasFullWeek = true)

include hc hfull

/-- Clearing Saturday leaves the seam as it is. -/
theorem meetsAtSeam_clear (hd : d + 1 = Weekday.sunday) : (h.clear d).MeetsAtSeam ↔ h.MeetsAtSeam := by
  rw [meetsAtSeam_clear_iff, hc.meetsAtSeam_iff_covers hfull]
  refine forall_congr' fun t => imp_congr_right fun h1 => imp_congr_right fun ht => ?_
  have hseam : (d + 1).midnight + (day + t) = t + 1 * week := by
    rw [hd, show Weekday.sunday.midnight = 6 * day from rfl]
    simp only [week, day]
    omega
  have hcov := covers_clear_midnight_succ (h := h) (d := d) (v := day + t)
    (by simp only [day]; omega) (by omega)
  rw [hseam, covers_add_week, covers_add_week] at hcov
  rw [hcov]
  exact and_iff_left (by simp only [day, spill]; omega)

/-- A run of the day after is one that it had, from `spill` on. -/
theorem runsThrough_clear (hs : spill ≤ s) (hu : u < day + spill) :
    (h.clear d).RunsThrough (d + 1) s u ↔ h.RunsThrough (d + 1) s u := by
  have h0 : 0 ≤ s := Int.le_trans (by decide) hs
  rw [runsThrough_iff hu, runsThrough_iff hu]
  refine and_congr ?_ ?_
  · refine forall_congr' fun v => imp_congr_right fun hsv => imp_congr_right fun hvu => ?_
    rw [covers_clear_midnight_succ (by omega) (by omega)]
    exact and_iff_left (Int.le_trans hs hsv)
  · by_cases hd : d + 1 = Weekday.sunday
    · rw [meetsAtSeam_clear hc hfull hd]
    · simp [hd]

/-- An interval, or its copy a week earlier or later, that holds a second of a day holds the later ones that
coverage reaches. -/
theorem mem_image_iff_runsThrough {j : Interval} (hj : j ∈ h.images) (h0 : 0 ≤ s) (hday : s < day)
    (hs : d.midnight + s ∈ j) (hsu : s ≤ u) : d.midnight + u ∈ j ↔ h.RunsThrough d s u := by
  have hd := d.midnight_bounds
  obtain ⟨i, hi, k, hk, rfl⟩ := exists_shift_of_mem_images hj
  have hb := hc.bounds i hi
  simp only [Interval.mem_iff, Interval.shift] at hs ⊢
  constructor
  · intro hmem
    refine ⟨fun v hsv hvu => covers_of_mem_images hj ⟨?_, ?_⟩, fun hm => ?_⟩
    · exact Int.le_trans hs.1 (Int.add_le_add_left hsv _)
    · exact Int.lt_of_le_of_lt (Int.add_le_add_left hvu _) hmem.2
    · have hstop := hc.stop_le_of_meetsAtSeam hm hi
      simp only [week, day] at *
      omega
  · rintro ⟨hopen, hseam⟩
    refine ⟨by omega, ?_⟩
    by_contra hlt
    -- otherwise coverage goes on past the end of the interval, which only the seam allows
    have hcov := hopen (i.stop + k * week - d.midnight) (by omega) (by omega)
    rw [show d.midnight + (i.stop + k * week - d.midnight) = i.stop + k * week by omega,
      covers_add_week] at hcov
    obtain ⟨hm, hw⟩ := hc.covers_stop hfull hi hcov
    have hend := hseam hm
    simp only [week, day] at *
    omega

/-- What runs from second `spill` on has started on the day, or an earlier opening has run up to it. -/
theorem runsThrough_spill_iff (hs : spill ≤ u) :
    h.RunsThrough d spill u ↔ (∃ j ∈ h.images, j.start < d.midnight ∧
        ∀ v, spill ≤ v → v ≤ u → d.midnight + v ∈ j) ∨
      ∃ s, (0 ≤ s ∧ s ≤ spill) ∧ h.StartsAt d s ∧ h.RunsThrough d s u := by
  have hd := d.midnight_bounds
  have himage := fun {j} (hj : j ∈ h.images) (hmem : d.midnight + spill ∈ j) =>
    mem_image_iff_runsThrough hc hfull hj (by decide) (by decide) hmem hs
  constructor
  · intro hrun
    obtain ⟨j, hj, hmem⟩ := (hc.covers_iff_holds_images (by simp only [spill]; omega)
      (by simp only [week, day, spill] at *; omega)).1 (hrun.1 spill (Int.le_refl _) hs)
    have hlast := (himage hj hmem).2 hrun
    simp only [Interval.mem_iff] at hmem hlast
    by_cases hstart : j.start < d.midnight
    · exact .inl ⟨j, hj, hstart, fun v _ _ => ⟨by omega, by omega⟩⟩
    · have hs0 : j.start = d.midnight + (j.start - d.midnight) := by omega
      have hjh := hc.mem_of_mem_images hj (by omega) (by simp only [week, day, spill] at *; omega)
      have hopening := (hc.exists_start_iff_startsAt hfull (by omega)
        (by simp only [day, spill] at *; omega)).1 ⟨j, hjh, hs0⟩
      exact .inr ⟨_, ⟨by omega, by omega⟩, hopening.2,
        (hc.mem_iff_runsThrough hfull hjh hs0 (by omega)).1 ⟨by omega, by omega⟩⟩
  · rintro (⟨j, hj, -, hmem⟩ | ⟨s, ⟨-, hsp⟩, -, hopen, hseam⟩)
    · exact (himage hj (hmem spill (Int.le_refl _) hs)).1 (hmem u hs (Int.le_refl u))
    · exact ⟨fun v hv => hopen v (Int.le_trans hsp hv), hseam⟩

/-- The day after shows what it showed from `spill` on, and what an earlier opening had run through. -/
theorem holds_view_clear_iff (hs : spill ≤ u) (hu : u < day + spill) :
    ((h.clear d).view (d + 1)).Holds u ↔ (h.view (d + 1)).Holds u ∨
      ∃ j ∈ h.images, j.start < (d + 1).midnight ∧ ∀ v, spill ≤ v → v ≤ u → (d + 1).midnight + v ∈ j := by
  have hspill := runsThrough_spill_iff hc hfull (d := d + 1) hs
  rw [holds_view_clear_iff_run, hc.holds_view_iff_run hfull]
  constructor
  · rintro ⟨s, ⟨h0, hday, hsu, -⟩, hstart, hrun⟩
    have hlate := ((covers_clear_midnight_succ (by omega) (by omega)).1 (hrun.1 s (Int.le_refl s) hsu)).2
    rw [runsThrough_clear hc hfull hlate hu] at hrun
    rcases (startsAt_clear hlate hday).1 hstart with rfl | hstart
    · rcases hspill.1 hrun with himage | ⟨s, ⟨h0, hsp⟩, hstart, hrun⟩
      · exact .inr himage
      · exact .inl ⟨s, ⟨h0, by omega, by omega, hu⟩, hstart, hrun⟩
    · exact .inl ⟨s, ⟨h0, hday, hsu, hu⟩, hstart, hrun⟩
  · -- everything that reaches `u` from before second `spill` starts there now
    have hcut : h.RunsThrough (d + 1) spill u → ∃ s, (0 ≤ s ∧ s < day ∧ s ≤ u ∧ u < day + spill) ∧
        (h.clear d).StartsAt (d + 1) s ∧ (h.clear d).RunsThrough (d + 1) s u := fun hrun =>
      ⟨spill, ⟨by decide, by decide, hs, hu⟩, (startsAt_clear (Int.le_refl _) (by decide)).2 (.inl rfl),
        (runsThrough_clear hc hfull (Int.le_refl _) hu).2 hrun⟩
    rintro (⟨s, ⟨h0, hday, hsu, -⟩, hstart, hrun⟩ | himage)
    · rcases Int.lt_or_le spill s with hlate | hearly
      · exact ⟨s, ⟨h0, hday, hsu, hu⟩, (startsAt_clear (by omega) hday).2 (.inr hstart),
          (runsThrough_clear hc hfull (by omega) hu).2 hrun⟩
      · exact hcut (hspill.2 (.inr ⟨s, ⟨h0, hearly⟩, hstart, hrun⟩))
    · exact hcut (hspill.2 (.inl himage))

end After

/-- What clearing a day does to the views of the day, of the day before and of the day after, if the hours
are not always open. -/
theorem views_around_cleared (h : Hours) (d : Weekday) (hfull : ¬ h.normalize.hasFullWeek = true) :
    (h.clear d).view d = [] ∧
    (h.clear d).view (d - 1) = (h.normalize.view (d - 1)).map (fun i => ⟨i.start, min i.stop day⟩) ∧
    (∀ u, u < spill → ¬ ((h.clear d).view (d + 1)).Holds u) ∧
    ∀ u, spill ≤ u → u < day + spill → (((h.clear d).view (d + 1)).Holds u ↔
      (h.normalize.view (d + 1)).Holds u ∨
        ∃ j ∈ h.normalize.images, j.start < (d + 1).midnight ∧
          ∀ v, spill ≤ v → v ≤ u → (d + 1).midnight + v ∈ j) := by
  have hc := canonical_normalize h
  have hbefore := view_clear_succ (d := d - 1) hc hfull
  rw [Weekday.sub_one_add_one, clear_normalize] at hbefore
  refine ⟨view_clear_self h d, hbefore, fun u => not_holds_view_clear, fun u hs hu => ?_⟩
  rw [← clear_normalize]
  exact holds_view_clear_iff hc hfull hs hu

/-- Open from Friday 18:00 to Sunday 12:00, which Friday shows up to 30:00 and the other days not at all. With
Saturday cleared, Friday shows six hours, and Sunday is seen to be open at 08:00 though not at 01:00. -/
theorem views_around_cleared_saturday :
    (Hours.clear [⟨410400, 561600⟩] 5).view 5 = [] ∧
    (Hours.clear [⟨410400, 561600⟩] 5).view 4 = [⟨64800, 86400⟩] ∧
    ¬ ((Hours.clear [⟨410400, 561600⟩] 5).view Weekday.sunday).Holds 3600 ∧
    ((Hours.clear [⟨410400, 561600⟩] 5).view Weekday.sunday).Holds 28800 := by
  have hnormal : Hours.normalize [⟨410400, 561600⟩] = [⟨410400, 561600⟩] := by decide
  obtain ⟨hself, hbefore, hearly, hafter⟩ := views_around_cleared [⟨410400, 561600⟩] 5 (by decide)
  rw [hnormal] at hbefore hafter
  refine ⟨hself, hbefore.trans (by decide), hearly 3600 (by decide), ?_⟩
  refine (hafter 28800 (by decide) (by decide)).2 (.inr ⟨⟨410400, 561600⟩, by decide, by decide, ?_⟩)
  intro v hs hv
  have hsunday : (5 + 1 : Weekday).midnight = 518400 := by decide
  rw [hsunday]
  simp only [Interval.mem_iff, spill] at *
  omega

end Hours

end OpeningHours
