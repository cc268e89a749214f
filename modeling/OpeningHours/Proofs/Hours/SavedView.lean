import OpeningHours.Proofs.Hours.View

/-!
A day saved as it was shown. Putting the view of a day in its place clears the whole window first, so it
gives back the hours just when the view holds all that is open in the window. That is so when every opening
that reaches the window starts on the day, and it is never so for hours that are always open: the day that
they show ends at midnight, and what lies in the window past it is lost.
-/

namespace OpeningHours.Hours

/-- An interval, or its copy a week earlier or later, reaches into the window of day `d` without starting
on the day. -/
def ReachedInto (h : Hours) (d : Weekday) : Prop :=
  ∃ j ∈ h.images, ¬ (d.midnight ≤ j.start ∧ j.start < d.midnight + day) ∧ (j.inter (window d)).Proper

instance (h : Hours) (d : Weekday) : Decidable (h.ReachedInto d) :=
  inferInstanceAs (Decidable (∃ j ∈ h.images, _))

namespace Canonical

variable {h r : Hours} {d : Weekday}

/-- Replacing a day changes nothing if the new openings hold what is open in its window. -/
theorem replace_eq_self_iff (hc : h.Canonical) :
    h.replace d r = h ↔ ∀ u, 0 ≤ u → u < day + spill → (r.Holds u ↔ h.Covers (d.midnight + u)) := by
  constructor
  · intro he u h0 hu
    rw [← holds_merge, ← covers_replace_window (h := h) (d := d) h0 hu, he]
  · intro hr
    apply (canonical_replace h d r).ext hc
    intro t
    rw [covers_replace]
    split_ifs with ht
    · rw [hr _ (Int.emod_nonneg _ (by decide)) ht]
      apply covers_congr_emod
      simp only [week]
      omega
    · rfl

/-- The images of canonical hours are all that they cover in the window of a day. -/
theorem covers_window_iff (hc : h.Canonical) {t : Int} (ht : t ∈ window d) :
    h.Covers t ↔ h.images.Holds t := by
  have hd := d.midnight_bounds
  rw [mem_window] at ht
  simp only [day, spill] at hd ht
  exact hc.covers_iff_holds_images (by omega) (by simp only [week]; omega)

/-- The view holds all that is open in the window just when nothing reaches into it from elsewhere. -/
theorem holds_view_iff_covers_iff (hc : h.Canonical) (hfull : ¬ h.hasFullWeek = true) :
    (∀ u, 0 ≤ u → u < day + spill → ((h.view d).Holds u ↔ h.Covers (d.midnight + u))) ↔
      ¬ h.ReachedInto d := by
  constructor
  · rintro hall ⟨j, hj, hstart, hreach⟩
    obtain ⟨t, ht⟩ := Interval.proper_iff_exists_mem.1 hreach
    obtain ⟨htj, hwin⟩ := Interval.mem_inter.1 ht
    have hcov := (hc.covers_window_iff hwin).2 ⟨j, hj, htj⟩
    rw [mem_window] at hwin
    rw [show t = d.midnight + (t - d.midnight) by omega] at hcov
    obtain ⟨i, hi, h0, hday, hti, -⟩ :=
      (hc.holds_view hfull).1 ((hall (t - d.midnight) (by omega) (by omega)).2 hcov)
    rw [show d.midnight + (t - d.midnight) = t + 0 * week by omega] at hti
    -- `j` is a copy of the interval that is shown at `t`, and it has not been moved
    obtain ⟨i', hi', k, -, rfl⟩ := exists_shift_of_mem_images hj
    rw [Interval.mem_shift, Int.sub_eq_add_neg, ← Int.neg_mul] at htj
    obtain ⟨hk, rfl⟩ := hc.eq_of_mem hi hi' hti htj
    obtain rfl : k = 0 := by omega
    simp only [Interval.shift, Int.zero_mul, Int.add_zero] at hstart
    exact hstart ⟨h0, hday⟩
  · intro hno u h0 hu
    have hd := d.midnight_bounds
    have hwin : d.midnight + u ∈ window d := mem_window.2 (by omega)
    rw [hc.holds_view hfull, hc.covers_window_iff hwin]
    constructor
    · rintro ⟨i, hi, -, -, hui, -⟩
      exact ⟨i, mem_images.2 ⟨i, hi, hc.proper i hi, .inr (.inl rfl)⟩, hui⟩
    · rintro ⟨j, hj, huj⟩
      have hstart : d.midnight ≤ j.start ∧ j.start < d.midnight + day := by
        by_contra hne
        have hmem := Interval.mem_inter.2 ⟨huj, hwin⟩
        exact hno ⟨j, hj, hne, Interval.proper_iff_exists_mem.2 ⟨_, hmem⟩⟩
      have hjh := hc.mem_of_mem_images hj (by omega) (by simp only [week, day] at *; omega)
      exact ⟨j, hjh, hstart.1, hstart.2, huj, hu⟩

/-- Of hours that are always open, saving the view of a day closes the rest of the day's window. -/
theorem covers_replace_view_of_hasFullWeek (hfull : h.hasFullWeek = true) {t : Int} :
    (h.replace d (h.view d)).Covers t ↔
      ¬ (day ≤ (t - d.midnight) % week ∧ (t - d.midnight) % week < day + spill) := by
  have hmod := Int.emod_nonneg (t - d.midnight) (show week ≠ 0 by decide)
  have hopen := covers_of_hasFullWeek hfull t
  rw [covers_replace, view, if_pos hfull]
  split_ifs with ht
  · rw [holds_cons, or_iff_left (holds_nil _)]
    simp only [Weekday.InWindow, Interval.mem_iff] at *
    omega
  · simp only [Weekday.InWindow] at ht
    exact iff_of_true hopen (by omega)

end Canonical

/-- A day saved as it was shown leaves the hours as they were just when they are not always open and nothing
reaches into its window from other days. If they are always open, the window is closed from the next midnight
on. -/
theorem replace_view_eq_self_iff (h : Hours) (d : Weekday) :
    (h.normalize.replace d (h.normalize.view d) = h.normalize ↔
      ¬ h.normalize.hasFullWeek = true ∧ ¬ h.normalize.ReachedInto d) ∧
    (h.normalize.hasFullWeek = true → ∀ t,
      (h.normalize.replace d (h.normalize.view d)).Covers t ↔
        ¬ (day ≤ (t - d.midnight) % week ∧ (t - d.midnight) % week < day + spill)) := by
  have hc := canonical_normalize h
  refine ⟨?_, fun hfull t => Canonical.covers_replace_view_of_hasFullWeek hfull⟩
  by_cases hfull : h.normalize.hasFullWeek = true
  · refine iff_of_false (fun he => ?_) fun hnot => hnot.1 hfull
    -- the midnight after the day is closed now
    have hlost := (Canonical.covers_replace_view_of_hasFullWeek (d := d) (t := d.midnight + day) hfull).1
    rw [he, show d.midnight + day - d.midnight = day by omega] at hlost
    exact hlost (covers_of_hasFullWeek hfull _) (by decide)
  · rw [hc.replace_eq_self_iff, hc.holds_view_iff_covers_iff hfull]
    exact (and_iff_right hfull).symm

/-- Saturday from 18:00 to 26:00 is saved as it is shown. A week without a break is not: once Monday is
saved, Tuesday at 01:00 is closed. -/
theorem replace_view_eq_self_night :
    Hours.replace [⟨496800, 525600⟩] 5 (Hours.view [⟨496800, 525600⟩] 5) = [⟨496800, 525600⟩] ∧
    ¬ ((Hours.normalize [⟨0, week⟩]).replace Weekday.monday
      ((Hours.normalize [⟨0, week⟩]).view Weekday.monday)).Covers 90000 := by
  constructor
  · have hnight : Hours.normalize [⟨496800, 525600⟩] = [⟨496800, 525600⟩] := by decide
    have hsaved := (replace_view_eq_self_iff [⟨496800, 525600⟩] 5).1.2 (by decide)
    rwa [hnight] at hsaved
  · intro hopen
    exact ((replace_view_eq_self_iff [⟨0, week⟩] Weekday.monday).2 (by decide) 90000).1 hopen (by decide)

/-- Of a week without a break, saving Monday as it is shown loses open time. -/
theorem replace_view_ne_self : ¬ ∀ (h : Hours) (d : Weekday),
    h.normalize.hasFullWeek = true ∨ ¬ h.normalize.ReachedInto d →
      h.normalize.replace d (h.normalize.view d) = h.normalize := by
  intro hall
  have hsaved := hall [⟨0, 604800⟩] Weekday.monday (.inl (by decide))
  exact absurd hsaved (by decide)

end OpeningHours.Hours
