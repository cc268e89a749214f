import OpeningHours.Proofs.Hours.Day
import OpeningHours.Proofs.Hours.Runs

/-!
What a day shows. Its view holds a second just when an opening that starts on the day reaches it within the
window. A replaced day shows the new openings that start before the next midnight, unless they run into
what the other days left open at either end of the window.
-/

namespace OpeningHours.Hours

theorem separated_view (h : Hours) (d : Weekday) : (h.view d).Separated := by
  unfold view
  split_ifs
  · exact separated_singleton (by decide)
  · exact separated_merge _

theorem mem_images {h : Hours} {j : Interval} :
    j ∈ h.images ↔ ∃ i ∈ h, i.Proper ∧ (j = i.shift (-week) ∨ j = i ∨ j = i.shift week) := by
  simp only [images, List.mem_flatMap, List.mem_filter, decide_eq_true_eq, List.mem_cons,
    List.not_mem_nil, or_false, and_assoc]

theorem exists_shift_of_mem_images {h : Hours} {j : Interval} (hj : j ∈ h.images) :
    ∃ i ∈ h, ∃ k : Int, (-1 ≤ k ∧ k ≤ 1) ∧ j = i.shift (k * week) := by
  obtain ⟨i, hi, -, hij | hij | hij⟩ := mem_images.1 hj
  · exact ⟨i, hi, -1, by decide, by simpa using hij⟩
  · exact ⟨i, hi, 0, by decide, by simp [hij, Interval.shift]⟩
  · exact ⟨i, hi, 1, by decide, by simpa using hij⟩

/-- Only the intervals of canonical hours themselves start in the week; their images start elsewhere. -/
theorem Canonical.mem_of_mem_images {h : Hours} (hc : h.Canonical) {j : Interval} (hj : j ∈ h.images)
    (h0 : 0 ≤ j.start) (hw : j.start < week) : j ∈ h := by
  obtain ⟨i, hi, -, rfl | rfl | rfl⟩ := mem_images.1 hj
  · have hb := hc.bounds i hi
    simp only [Interval.shift] at h0
    omega
  · exact hi
  · have hb := hc.bounds i hi
    simp only [Interval.shift] at hw
    omega

theorem proper_of_mem_images {h : Hours} {j : Interval} (hj : j ∈ h.images) : j.Proper := by
  obtain ⟨i, -, hi, rfl | rfl | rfl⟩ := mem_images.1 hj
  · exact Interval.proper_shift.2 hi
  · exact hi
  · exact Interval.proper_shift.2 hi

/-- What an image holds is covered. -/
theorem covers_of_mem_images {h : Hours} {j : Interval} {t : Int} (hj : j ∈ h.images) (ht : t ∈ j) :
    h.Covers t := by
  obtain ⟨i, hi, k, -, rfl⟩ := exists_shift_of_mem_images hj
  exact ⟨i, hi, (Interval.covers_shift_week k).1 (Interval.covers_of_mem ht)⟩

/-- Over two weeks the images of canonical hours are all that they cover. -/
theorem Canonical.covers_iff_holds_images {h : Hours} (hc : h.Canonical) {t : Int} (h0 : 0 ≤ t)
    (hw : t < 2 * week) : h.Covers t ↔ h.images.Holds t := by
  constructor
  · rintro ⟨i, hi, k, hk⟩
    have hb := hc.bounds i hi
    refine ⟨i.shift (-(k * week)), ?_, by rwa [Interval.mem_shift, Int.sub_neg]⟩
    have himage : k = 1 ∨ k = 0 ∨ k = -1 := by
      simp only [Interval.mem_iff, week, spill] at *
      omega
    rw [mem_images]
    refine ⟨i, hi, hc.proper i hi, ?_⟩
    rcases himage with rfl | rfl | rfl <;> simp [Interval.shift]
  · rintro ⟨j, hj, ht⟩
    exact covers_of_mem_images hj ht

theorem Canonical.holds_view {h : Hours} (hc : h.Canonical) (hfull : ¬ h.hasFullWeek = true)
    {d : Weekday} {u : Int} :
    (h.view d).Holds u ↔ ∃ i ∈ h, d.midnight ≤ i.start ∧ i.start < d.midnight + day ∧
      d.midnight + u ∈ i ∧ u < day + spill := by
  have hd := d.midnight_bounds
  rw [view, if_neg hfull, holds_merge]
  simp only [Holds, List.mem_map, List.mem_filter, decide_eq_true_eq, exists_exists_and_eq_and,
    Interval.mem_shift, Interval.mem_inter, mem_window]
  constructor
  · rintro ⟨j, ⟨hj, hstart⟩, hu⟩
    have hi := hc.mem_of_mem_images hj (by omega) (by simp only [week, day] at *; omega)
    simp only [Interval.mem_iff] at *
    exact ⟨j, hi, by omega⟩
  · rintro ⟨i, hi, h0, hday, hu, hspill⟩
    refine ⟨i, ⟨mem_images.2 ⟨i, hi, hc.proper i hi, .inr (.inl rfl)⟩, h0, hday⟩, ?_⟩
    simp only [Interval.mem_iff] at *
    omega

/-- What a day shows is open. -/
theorem Canonical.covers_of_holds_view {h : Hours} (hc : h.Canonical) {d : Weekday} {u : Int}
    (hu : (h.view d).Holds u) : h.Covers (d.midnight + u) := by
  by_cases hfull : h.hasFullWeek = true
  · exact covers_of_hasFullWeek hfull _
  · obtain ⟨i, hi, -, -, hui, -⟩ := (hc.holds_view hfull).1 hu
    exact ⟨i, hi, Interval.covers_of_mem hui⟩

/-- A view lies within what a day can hold, and its intervals start on the day. -/
theorem Canonical.view_bounds {h : Hours} (hc : h.Canonical) (d : Weekday) :
    ∀ i ∈ h.view d, 0 ≤ i.start ∧ i.start < day ∧ i.stop ≤ day + spill := by
  intro i hi
  by_cases hfull : h.hasFullWeek = true
  · rw [view, if_pos hfull] at hi
    rw [List.mem_singleton.1 hi]
    decide
  have hs := separated_view h d
  have hp := hs.proper i hi
  obtain ⟨j, hj, h0, hday, hstart, -⟩ := (hc.holds_view hfull).1 ⟨i, hi, Interval.start_mem hp⟩
  obtain ⟨-, -, -, -, -, hlast⟩ := (hc.holds_view hfull).1 ⟨i, hi, Interval.last_mem hp⟩
  have hbefore : ¬ d.midnight + (i.start - 1) ∈ j := by
    intro hmem
    refine hs.not_holds_before hi ((hc.holds_view hfull).2 ⟨j, hj, h0, hday, hmem, ?_⟩)
    simp only [Interval.Proper] at hp
    omega
  simp only [Interval.mem_iff] at hstart hbefore
  omega

theorem Canonical.holds_view_bounds {h : Hours} (hc : h.Canonical) {d : Weekday} {u : Int}
    (hu : (h.view d).Holds u) : 0 ≤ u ∧ u < day + spill := by
  obtain ⟨i, hi, hui⟩ := hu
  have hb := hc.view_bounds d i hi
  simp only [Interval.mem_iff] at hui
  omega

/-! ### A replaced day -/

section Replace

variable {h r : Hours} {d : Weekday}

theorem covers_replace_window {v : Int} (h0 : 0 ≤ v) (hv : v < day + spill) :
    (h.replace d r).Covers (d.midnight + v) ↔ r.merge.Holds v := by
  have hmod : (d.midnight + v - d.midnight) % week = v := by
    simp only [week, day, spill] at *
    omega
  rw [covers_replace, if_pos (by rwa [Weekday.InWindow, hmod]), hmod, holds_merge]

theorem covers_replace_of_not_inWindow {t : Int} (ht : ¬ d.InWindow t) :
    (h.replace d r).Covers t ↔ (h.clear d).Covers t := by
  rw [covers_replace, if_neg ht, covers_clear]
  simp [ht]

/-- A replaced day shows nothing but the new openings that start before the next midnight. -/
theorem exists_of_holds_view_replace (hfull : ¬ (h.replace d r).hasFullWeek = true) {u : Int}
    (hu : ((h.replace d r).view d).Holds u) : ∃ p ∈ r.merge, p.start < day ∧ u ∈ p := by
  obtain ⟨i, hi, h0, hday, hui, hspill⟩ := ((canonical_replace h d r).holds_view hfull).1 hu
  have hrun : ∀ v, i.start - d.midnight ≤ v → v ≤ u → r.merge.Holds v := by
    intro v hs hv
    refine (covers_replace_window (h := h) (d := d) (by omega) (by omega)).1 ⟨i, hi, 0, ?_⟩
    simp only [Interval.mem_iff] at *
    omega
  simp only [Interval.mem_iff] at hui
  obtain ⟨p, hp, hs, hup⟩ := (separated_merge r).exists_mem_of_run (by omega) hrun
  exact ⟨p, hp, by have := hs.1; omega, hup⟩

/-- A new opening starts an interval of its own, unless the day before runs up to midnight. -/
theorem exists_start_of_mem_merge {p : Interval} (hp : p ∈ r.merge) (h0 : 0 ≤ p.start)
    (hday : p.start < day)
    (hmid : p.start = 0 → ¬ (h.clear d).Covers (d.midnight - 1)) :
    ¬ (h.replace d r).hasFullWeek = true ∧ ∃ i ∈ h.replace d r, i.start = d.midnight + p.start := by
  have hd := d.midnight_bounds
  have hbefore : ¬ (h.replace d r).Covers (d.midnight + p.start - 1) := by
    by_cases hs : p.start = 0
    · rw [hs, Int.add_zero, covers_replace_of_not_inWindow Weekday.not_inWindow_before]
      exact hmid hs
    · rw [show d.midnight + p.start - 1 = d.midnight + (p.start - 1) by omega]
      rw [covers_replace_window (by omega) (by simp only [day, spill] at *; omega)]
      exact (separated_merge r).not_holds_before hp
  refine ⟨fun hfull => hbefore (covers_of_hasFullWeek hfull _), ?_⟩
  refine (canonical_replace h d r).exists_start_eq ?_ ?_ ?_ hbefore
  · omega
  · simp only [week, day] at *
    omega
  · rw [covers_replace_window h0 (by simp only [day, spill] at *; omega)]
    exact ⟨p, hp, Interval.start_mem ((separated_merge r).proper p hp)⟩

/-- When the seam cuts a new opening, it is Sunday's, it fills the window to its end, and what was left
of Monday goes on from there. -/
theorem sunday_of_meetsAtSeam (hm : (h.replace d r).MeetsAtSeam) {p : Interval} (hp : p ∈ r.merge)
    (hspill : p.stop ≤ day + spill) (hw : week - d.midnight ∈ p) :
    d = Weekday.sunday ∧ p.stop = day + spill ∧ (h.clear d).Covers spill := by
  have hlong := fun t => (canonical_replace h d r).covers_of_meetsAtSeam (t := t) hm
  obtain rfl : d = Weekday.sunday := by
    apply Weekday.eq_sunday_of_lt
    simp only [Interval.mem_iff, week, day, spill] at *
    omega
  have hsun : Weekday.sunday.midnight = 6 * day := rfl
  refine ⟨rfl, ?_, ?_⟩
  · by_contra hne
    have hv : 0 ≤ p.stop - day ∧ p.stop - day ≤ spill := by
      simp only [Interval.mem_iff, week, day, spill] at *
      omega
    have hcov := (covers_add_week 1).2 (hlong (p.stop - day) hv.1 hv.2)
    rw [show p.stop - day + 1 * week = Weekday.sunday.midnight + p.stop by
      simp only [week, day] at *; omega] at hcov
    refine (separated_merge r).not_holds_stop hp ((covers_replace_window ?_ ?_).1 hcov)
    · simp only [day, spill] at *
      omega
    · omega
  · refine (covers_replace_of_not_inWindow (r := r) ?_).1 (hlong spill (by decide) (Int.le_refl _))
    decide

/-- A new opening is shown up to its end, unless the seam cuts it. -/
theorem holds_view_replace {p : Interval} (hp : p ∈ r.merge) (h0 : 0 ≤ p.start) (hday : p.start < day)
    (hspill : p.stop ≤ day + spill)
    (hmid : p.start = 0 → ¬ (h.clear d).Covers (d.midnight - 1))
    (hseam : d = Weekday.sunday → p.stop = day + spill → ¬ (h.clear d).Covers spill) {u : Int}
    (hu : u ∈ p) : ((h.replace d r).view d).Holds u := by
  have hc := canonical_replace h d r
  obtain ⟨hfull, i, hi, hs⟩ := exists_start_of_mem_merge (h := h) (d := d) hp h0 hday hmid
  have hbi := hc.bounds i hi
  simp only [Interval.mem_iff] at hu
  refine (hc.holds_view hfull).2 ⟨i, hi, by omega, by omega, ⟨by omega, ?_⟩, by omega⟩
  by_contra hlt
  have hstop : i.stop - d.midnight ∈ p := ⟨by omega, by omega⟩
  have hcov : (h.replace d r).Covers i.stop := by
    rw [show i.stop = d.midnight + (i.stop - d.midnight) by omega]
    exact (covers_replace_window (by omega) (by omega)).2 ⟨p, hp, hstop⟩
  obtain ⟨hm, hw⟩ := hc.covers_stop hfull hi hcov
  rw [hw] at hstop
  obtain ⟨hsun, hend, hleft⟩ := sunday_of_meetsAtSeam hm hp hspill hstop
  exact hseam hsun hend hleft

/-- The new openings start at a midnight up to which the day before stays open. -/
def MeetsBefore (h : Hours) (d : Weekday) (r : Hours) : Prop :=
  (∃ p ∈ r.merge, p.start = 0) ∧ (h.clear d).isOpenAt (d.midnight - 1) = true

/-- The new openings of Sunday fill the window up to its end, from where Monday stays open. -/
def MeetsAfter (h : Hours) (d : Weekday) (r : Hours) : Prop :=
  d = Weekday.sunday ∧ (∃ p ∈ r.merge, p.stop = day + spill) ∧ (h.clear d).isOpenAt spill = true

instance : Decidable (h.MeetsBefore d r) := inferInstanceAs (Decidable (_ ∧ _))

instance : Decidable (h.MeetsAfter d r) := inferInstanceAs (Decidable (_ ∧ _ ∧ _))

theorem not_hasFullWeek_replace (hr : ∀ i ∈ r, i.Proper → 0 ≤ i.start ∧ i.stop ≤ day + spill)
    (hb : ¬ h.MeetsBefore d r) : ¬ (h.replace d r).hasFullWeek = true := by
  intro hfull
  have hall := covers_of_hasFullWeek hfull
  obtain ⟨p, hp, h0⟩ := (covers_replace_window (Int.le_refl 0) (by decide)).1 (hall _)
  have hp0 := (merge_bounds hr p hp).1
  refine hb ⟨⟨p, hp, Int.le_antisymm h0.1 hp0⟩, ?_⟩
  rw [(canonical_clear h d).isOpenAt_iff_covers]
  exact (covers_replace_of_not_inWindow Weekday.not_inWindow_before).1 (hall _)

/-- Reading a replaced day back gives the new openings that start before the next midnight. They are all
of them exactly when none lies wholly past that midnight. -/
theorem view_replace (hr : ∀ i ∈ r, i.Proper → 0 ≤ i.start ∧ i.stop ≤ day + spill)
    (hb : ¬ h.MeetsBefore d r) (ha : ¬ h.MeetsAfter d r) :
    (h.replace d r).view d = r.merge.filter (·.start < day) ∧
      ((h.replace d r).view d = r.merge ↔ ∀ p ∈ r.merge, p.start < day) := by
  have hfull := not_hasFullWeek_replace hr hb
  have hopen := fun t => (canonical_clear h d).isOpenAt_iff_covers (t := t)
  have hview : (h.replace d r).view d = r.merge.filter (·.start < day) := by
    apply (separated_view _ _).ext ((separated_merge r).sublist List.filter_sublist)
    intro u
    constructor
    · intro hu
      obtain ⟨p, hp, hday, hup⟩ := exists_of_holds_view_replace hfull hu
      exact ⟨p, by simp [hp, hday], hup⟩
    · rintro ⟨p, hp, hu⟩
      simp only [List.mem_filter, decide_eq_true_eq] at hp
      obtain ⟨h0, hstop⟩ := merge_bounds hr p hp.1
      apply holds_view_replace hp.1 h0 hp.2 hstop _ _ hu
      · intro hs hc
        exact hb ⟨⟨p, hp.1, hs⟩, (hopen _).2 hc⟩
      · intro hd he hc
        exact ha ⟨hd, ⟨p, hp.1, he⟩, (hopen _).2 hc⟩
  refine ⟨hview, ?_⟩
  rw [hview, List.filter_eq_self]
  simp only [decide_eq_true_eq]

end Replace

/-- Monday from 01:00 to 02:00 is read back, and from 25:00 to 26:00 is not. -/
theorem view_replace_late :
    (Hours.replace [⟨590400, 626400⟩] Weekday.monday [⟨90000, 93600⟩, ⟨3600, 7200⟩]).view Weekday.monday =
      [⟨3600, 7200⟩] :=
  (view_replace (by decide) (by decide) (by decide)).1

/-- Openings within the window that touch nothing else need not be read back. -/
theorem view_replace_ne_merge : ¬ ∀ (h r : Hours) (d : Weekday),
    (∀ i ∈ r, i.Proper → 0 ≤ i.start ∧ i.stop ≤ day + spill) → ¬ h.MeetsBefore d r →
      ¬ h.MeetsAfter d r → (h.replace d r).view d = r.merge := by
  intro hall
  have hback := hall [] [⟨90000, 93600⟩] Weekday.monday (by decide) (by decide) (by decide)
  exact absurd hback (by decide)

end OpeningHours.Hours
