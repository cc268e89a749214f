import OpeningHours.Proofs.Hours.Locality

/-!
Turning the week by whole days. Editing turned hours is the same as turning edited hours: no midnight is
special to an edit, the one between Sunday and Monday included. Views turn along too, except that the seam
can cut an opening in two.
-/

namespace OpeningHours

namespace Weekday

theorem midnight_add (d k : Weekday) : (d + k).midnight = (d.midnight + k.midnight) % week := by
  have hd := d.isLt
  have hk := k.isLt
  simp only [midnight, Fin.val_add, week, day]
  omega

/-- Seconds are counted from the midnight of a turned day as from that of the day itself. -/
theorem sub_midnight_add_emod (d k : Weekday) (t : Int) :
    (t - (d + k).midnight) % week = (t - k.midnight - d.midnight) % week := by
  rw [midnight_add]
  simp only [week]
  omega

theorem inWindow_add {d k : Weekday} {t : Int} :
    (d + k).InWindow t ↔ d.InWindow (t - k.midnight) := by
  rw [InWindow, InWindow, sub_midnight_add_emod]

end Weekday

namespace Hours

/-- Seconds counted from the next midnight, which after Sunday is Monday's. -/
theorem covers_next_midnight {h : Hours} {d : Weekday} {v : Int} :
    h.Covers ((d + 1).midnight + v) ↔ h.Covers (d.midnight + (day + v)) := by
  apply covers_congr_emod
  rw [Weekday.midnight_add, show (1 : Weekday).midnight = day from rfl]
  simp only [week, day]
  omega

/-- Replacing a day commutes with turning the week. -/
theorem replace_shift (h r : Hours) (d k : Weekday) :
    (h.shift k.midnight).replace (d + k) r = ((h.replace d r).shift k.midnight).normalize := by
  apply (canonical_replace _ _ _).ext (canonical_normalize _)
  intro t
  rw [covers_normalize, covers_shift, covers_replace, covers_replace, covers_shift]
  simp only [Weekday.inWindow_add, Weekday.sub_midnight_add_emod]

/-- Clearing a day commutes with turning the week. -/
theorem clear_shift (h : Hours) (d k : Weekday) :
    (h.shift k.midnight).clear (d + k) = ((h.clear d).shift k.midnight).normalize := by
  apply (canonical_clear _ _).ext (canonical_normalize _)
  intro t
  rw [covers_normalize, covers_shift, covers_clear, covers_clear, covers_shift, Weekday.inWindow_add]

section View

variable (h : Hours) (d k : Weekday)

theorem covers_normalize_shift (v : Int) :
    (h.shift k.midnight).normalize.Covers ((d + k).midnight + v) ↔
      h.normalize.Covers (d.midnight + v) := by
  rw [covers_normalize, covers_shift, covers_normalize]
  apply covers_congr_emod
  rw [Weekday.midnight_add]
  simp only [week]
  omega

theorem hasFullWeek_normalize_shift :
    (h.shift k.midnight).normalize.hasFullWeek = true ↔ h.normalize.hasFullWeek = true := by
  rw [(canonical_normalize _).hasFullWeek_iff_covers, (canonical_normalize _).hasFullWeek_iff_covers]
  simp only [covers_normalize, covers_shift]
  constructor
  · intro hall t
    simpa using hall (t + k.midnight)
  · intro hall t
    exact hall _

/-- A view turns with the week, if the seam cuts no opening before or after. -/
theorem view_shift (hcut : ¬ h.normalize.MeetsAtSeam)
    (kcut : ¬ (h.shift k.midnight).normalize.MeetsAtSeam) :
    (h.shift k.midnight).normalize.view (d + k) = h.normalize.view d := by
  have hfull := hasFullWeek_normalize_shift h k
  by_cases hf : h.normalize.hasFullWeek = true
  · rw [view, view, if_pos hf, if_pos (hfull.2 hf)]
  · apply (separated_view _ _).ext (separated_view _ _)
    intro u
    rw [(canonical_normalize _).holds_view_iff_run hf,
      (canonical_normalize _).holds_view_iff_run (mt hfull.1 hf)]
    simp only [StartsAt, RunsThrough, hcut, kcut, covers_normalize_shift, false_and, false_imp_iff]

end View

/-- The seam is like any other midnight. Turning the week commutes with replacing and with clearing a day,
and views turn along as long as the seam cuts no opening before or after the turn. -/
theorem edits_turn_with_week (h r : Hours) (d k : Weekday) :
    (h.shift k.midnight).replace (d + k) r = ((h.replace d r).shift k.midnight).normalize ∧
      (h.shift k.midnight).clear (d + k) = ((h.clear d).shift k.midnight).normalize ∧
      (¬ h.normalize.MeetsAtSeam → ¬ (h.shift k.midnight).normalize.MeetsAtSeam →
        (h.shift k.midnight).normalize.view (d + k) = h.normalize.view d) :=
  ⟨replace_shift h r d k, clear_shift h d k, view_shift h d k⟩

/-- Sunday from 20:00 to 27:00 runs over the seam, and a day later it is Monday's. -/
theorem edits_turn_with_week_night :
    Hours.normalize [⟨590400, 615600⟩] = [⟨590400, 615600⟩] ∧
      (Hours.shift [⟨590400, 615600⟩] day).normalize = [⟨72000, 97200⟩] ∧
      Hours.view [⟨72000, 97200⟩] Weekday.monday = Hours.view [⟨590400, 615600⟩] Weekday.sunday := by
  have hnight : Hours.normalize [⟨590400, 615600⟩] = [⟨590400, 615600⟩] := by decide
  have hlater : (Hours.shift [⟨590400, 615600⟩] (1 : Weekday).midnight).normalize = [⟨72000, 97200⟩] := by
    decide
  have hturn := (edits_turn_with_week [⟨590400, 615600⟩] [] Weekday.sunday 1).2.2 (by decide) (by decide)
  rw [hnight, hlater] at hturn
  exact ⟨hnight, hlater, hturn⟩

end Hours

end OpeningHours
