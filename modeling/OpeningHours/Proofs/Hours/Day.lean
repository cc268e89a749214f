import OpeningHours.Hours.Day
import OpeningHours.Proofs.Hours.Canonical

/-!
What editing a day does to coverage. Clearing a day takes away its whole window, read on the cycle, and
nothing else; replacing it puts there what the new openings hold within the window. Both edits give
canonical hours.
-/

namespace OpeningHours

namespace Weekday

theorem midnight_bounds (d : Weekday) : 0 ≤ d.midnight ∧ d.midnight ≤ 6 * day := by
  have hd := d.isLt
  simp only [midnight, day]
  omega

theorem eq_sunday_of_lt {d : Weekday} (hd : 5 * day < d.midnight) : d = .sunday := by
  have hlt := d.isLt
  simp only [midnight, day] at hd
  apply Fin.ext
  show d.val = 6
  omega

theorem midnight_eq_zero_iff {d : Weekday} : d.midnight = 0 ↔ d = .monday := by
  have hval : d = .monday ↔ d.val = 0 := Fin.ext_iff
  rw [hval]
  simp only [midnight, day]
  omega

/-- Of all windows only Sunday's reaches the end of the week. -/
theorem midnight_add_lt_week_iff {d : Weekday} {u : Int} (hu : u < day + spill) :
    d.midnight + u < week ↔ (d = .sunday → u < day) := by
  have hlt := d.isLt
  have hval : d = .sunday ↔ d.val = 6 := Fin.ext_iff
  rw [hval]
  simp only [midnight, week, day, spill] at *
  omega

/-- Second `t` of the cycle is in the window of day `d`. -/
def InWindow (d : Weekday) (t : Int) : Prop := (t - d.midnight) % week < day + spill

instance (d : Weekday) (t : Int) : Decidable (d.InWindow t) := inferInstanceAs (Decidable (_ < _))

theorem inWindow_add_week {d : Weekday} {t : Int} (k : Int) :
    d.InWindow (t + k * week) ↔ d.InWindow t := by
  simp only [InWindow, week]
  omega

theorem not_inWindow_before {d : Weekday} : ¬ d.InWindow (d.midnight - 1) := by
  simp only [InWindow, week, day, spill]
  omega

/-- The windows of days that are at least two days apart do not meet. -/
theorem not_inWindow_of_apart {d e : Weekday} (hlo : 2 ≤ (e - d).val) (hhi : (e - d).val ≤ 5) {t : Int}
    (ht : d.InWindow t) : ¬ e.InWindow t := by
  have hd := d.isLt
  have he := e.isLt
  rw [Fin.val_sub] at hlo hhi
  simp only [InWindow, midnight, week, day, spill] at *
  omega

end Weekday

namespace Hours

theorem mem_window {d : Weekday} {t : Int} :
    t ∈ window d ↔ d.midnight ≤ t ∧ t < d.midnight + day + spill := by
  rw [window, Interval.mem_shift]
  simp only [localWindow, Interval.mem_iff]
  omega

/-- Where canonical hours can be open, the window and its neighbours a week apart are all its images. -/
theorem inWindow_iff {d : Weekday} {t : Int} (h0 : 0 ≤ t) (hw : t < week + spill) :
    d.InWindow t ↔ t + week ∈ window d ∨ t ∈ window d ∨ t - week ∈ window d := by
  have hd := d.midnight_bounds
  simp only [mem_window, Weekday.InWindow, week, day, spill] at *
  omega

theorem holds_diff {h : Hours} {cut : Interval} {t : Int} :
    (h.diff cut).Holds t ↔ h.Holds t ∧ t ∉ cut := by
  simp only [diff, holds_flatMap]
  constructor
  · rintro ⟨i, hi, ht⟩
    obtain ⟨hti, htc⟩ := Interval.exists_mem_diff.1 ht
    exact ⟨⟨i, hi, hti⟩, htc⟩
  · rintro ⟨⟨i, hi, hti⟩, htc⟩
    exact ⟨i, hi, Interval.exists_mem_diff.2 ⟨hti, htc⟩⟩

theorem Canonical.holds_bounds {h : Hours} (hc : h.Canonical) {t : Int} (ht : h.Holds t) :
    0 ≤ t ∧ t < week + spill := by
  obtain ⟨i, hi, ht⟩ := ht
  have hb := hc.bounds i hi
  simp only [Interval.mem_iff] at ht
  omega

theorem canonical_clear (h : Hours) (d : Weekday) : (h.clear d).Canonical := canonical_normalize _

theorem canonical_replace (h : Hours) (d : Weekday) (r : Hours) : (h.replace d r).Canonical :=
  canonical_normalize _

/-- Cutting the window and its neighbours a week apart cuts all that lies in the window on the cycle. -/
theorem Canonical.holds_cut {h : Hours} (hc : h.Canonical) {d : Weekday} {t : Int} :
    (((h.diff ((window d).shift (-week))).diff (window d)).diff ((window d).shift week)).Holds t ↔
      h.Holds t ∧ ¬ d.InWindow t := by
  simp only [holds_diff, Interval.mem_shift, Int.sub_neg, and_assoc]
  apply and_congr_right
  intro ht
  obtain ⟨h0, hw⟩ := hc.holds_bounds ht
  rw [inWindow_iff h0 hw, not_or, not_or]

/-- Clearing a day takes away its window and nothing else. -/
theorem covers_clear {h : Hours} {d : Weekday} {t : Int} :
    (h.clear d).Covers t ↔ h.Covers t ∧ ¬ d.InWindow t := by
  rw [← covers_normalize (h := h)]
  simp only [clear]
  rw [covers_normalize, covers_iff_holds, covers_iff_holds]
  simp only [(canonical_normalize h).holds_cut, Weekday.inWindow_add_week, exists_and_right]

theorem holds_clip {h : Hours} {t : Int} : h.clip.Holds t ↔ h.Holds t ∧ t ∈ localWindow := by
  rw [clip, holds_filter_proper, ← holds_merge (h := h)]
  simp only [Holds, List.mem_map, exists_exists_and_eq_and, Interval.mem_inter]
  constructor
  · rintro ⟨i, hi, ht, hw⟩
    exact ⟨⟨i, hi, ht⟩, hw⟩
  · rintro ⟨⟨i, hi, ht⟩, hw⟩
    exact ⟨i, hi, ht, hw⟩

theorem proper_clip {h : Hours} : ∀ i ∈ h.clip, i.Proper :=
  fun _ hi => of_decide_eq_true (List.mem_filter.1 hi).2

theorem clip_bounds {h : Hours} : ∀ i ∈ h.clip, 0 ≤ i.start ∧ i.stop ≤ day + spill := by
  intro i hi
  have hp := proper_clip i hi
  have hfirst := (holds_clip.1 ⟨i, hi, Interval.start_mem hp⟩).2
  have hlast := (holds_clip.1 ⟨i, hi, Interval.last_mem hp⟩).2
  simp only [localWindow, Interval.mem_iff] at hfirst hlast
  omega

/-- What is put in place of a day covers the seconds of its window that the new openings hold. -/
theorem covers_shift_clip {r : Hours} {d : Weekday} {t : Int} :
    (r.clip.shift d.midnight).Covers t ↔ d.InWindow t ∧ r.Holds ((t - d.midnight) % week) := by
  have hin : r.clip.Inside := by
    intro i hi
    have := clip_bounds i hi
    simp only [week, day, spill] at *
    omega
  rw [covers_shift, hin.covers_iff_holds, holds_clip, and_comm]
  apply and_congr_left
  intro _
  have hnonneg := Int.emod_nonneg (t - d.midnight) (show week ≠ 0 by decide)
  simp only [localWindow, Interval.mem_iff, Weekday.InWindow]
  omega

/-- Inside the window of a replaced day the new openings decide, outside it the old hours. -/
theorem covers_replace {h r : Hours} {d : Weekday} {t : Int} :
    (h.replace d r).Covers t ↔
      if d.InWindow t then r.Holds ((t - d.midnight) % week) else h.Covers t := by
  simp only [replace, covers_normalize, covers_append, covers_clear, covers_shift_clip]
  split_ifs with hd <;> simp [hd]

end Hours

end OpeningHours
