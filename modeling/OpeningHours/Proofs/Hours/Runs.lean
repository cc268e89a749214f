import OpeningHours.Hours.Basic
import OpeningHours.Proofs.Hours.Canonical

/-!
Openings of canonical hours as runs on the cycle. Unless the hours are always open, an interval starts where
coverage begins and stops where it ends. The one exception is an opening cut at the seam: its two parts
meet there, and `MeetsAtSeam` says when that happens.
-/

namespace OpeningHours.Hours.Canonical

variable {h : Hours} {i j : Interval}

/-- An interval from the start of the week and one up to its end meet at the seam. -/
theorem meetsAtSeam (hc : h.Canonical) (hfull : ¬ h.hasFullWeek = true) (hi : i ∈ h) (hj : j ∈ h)
    (hs : i.start = 0) (he : j.stop = week) : h.MeetsAtSeam := by
  rcases ends_cases h with rfl | ⟨x, rfl⟩ | ⟨s, b, mid, a, e, rfl⟩
  · cases hi
  · obtain rfl := List.mem_singleton.1 hi
    obtain rfl := List.mem_singleton.1 hj
    refine absurd (hasFullWeek_iff.2 ⟨j, hj, ?_⟩) hfull
    simp only [Interval.duration]
    omega
  have hfirst : 0 ≤ s ∧ s < week ∧ s < b ∧ b ≤ week + spill := hc.bounds ⟨s, b⟩ (by simp)
  have hlast : 0 ≤ a ∧ a < week ∧ a < e ∧ e ≤ week + spill := hc.bounds ⟨a, e⟩ (by simp)
  have hsep := hc.separated
  apply meetsAtSeam_ends.2
  constructor
  · rcases List.mem_cons.1 hi with rfl | hi
    · exact hs
    · have hb : b < i.start := (separated_cons.1 hsep).2.1 i hi
      omega
  · rw [← List.cons_append] at hj hsep
    rcases List.mem_append.1 hj with hj | hj
    · have ha : j.stop < a := (separated_concat.1 hsep).2.2 j hj
      omega
    · rw [List.mem_singleton.1 hj] at he
      exact he

/-- Coverage goes on after an interval only at the seam. -/
theorem covers_stop (hc : h.Canonical) (hfull : ¬ h.hasFullWeek = true) (hi : i ∈ h)
    (ht : h.Covers i.stop) : h.MeetsAtSeam ∧ i.stop = week := by
  obtain ⟨j, hj, k, hk⟩ := ht
  have hbi := hc.bounds i hi
  have hbj := hc.bounds j hj
  have hstop := hc.separated.not_holds_stop hi
  have hk0 : k ≠ 0 := by
    rintro rfl
    exact hstop ⟨j, hj, by simpa using hk⟩
  -- a copy of `j` that starts a week earlier can only run past the end of the week
  have hk1 : k ≠ 1 := by
    rintro rfl
    have hw := hc.wrap_lt hi hj
    simp only [Interval.mem_iff, week, spill] at *
    omega
  obtain rfl : k = -1 := by
    simp only [Interval.mem_iff, week, spill] at *
    omega
  have hend : i.stop = week ∧ j.start = 0 := by
    have hw := hc.wrap_lt hj hi
    simp only [Interval.mem_iff, week, spill] at *
    omega
  exact ⟨hc.meetsAtSeam hfull hj hi hend.2 hend.1, hend.1⟩

/-- Coverage goes on before an interval only at the seam. -/
theorem covers_before (hc : h.Canonical) (hfull : ¬ h.hasFullWeek = true) (hi : i ∈ h)
    (ht : h.Covers (i.start - 1)) : h.MeetsAtSeam ∧ i.start = 0 := by
  obtain ⟨j, hj, k, hk⟩ := ht
  have hbi := hc.bounds i hi
  have hbj := hc.bounds j hj
  have hbefore := hc.separated.not_holds_before hi
  have hk0 : k ≠ 0 := by
    rintro rfl
    exact hbefore ⟨j, hj, by simpa using hk⟩
  have hend : i.start = 0 ∧ j.stop = week := by
    have hw := hc.wrap_lt hi hj
    simp only [Interval.mem_iff, week, spill] at *
    omega
  exact ⟨hc.meetsAtSeam hfull hi hj hend.1 hend.2, hend.1⟩

/-- An opening that stays cut at the seam is open past the first `spill` seconds of the week. -/
theorem covers_of_meetsAtSeam (hc : h.Canonical) (hm : h.MeetsAtSeam) {t : Int} (h0 : 0 ≤ t)
    (ht : t ≤ spill) : h.Covers t := by
  obtain ⟨b, mid, a, rfl⟩ := meetsAtSeam_iff.1 hm
  have hb : spill < b := hc.seam hm ⟨0, b⟩ rfl
  exact covers_cons.2 (.inl (Interval.covers_of_mem ⟨h0, Int.lt_of_le_of_lt ht hb⟩))

/-- Where coverage begins, an interval starts. -/
theorem exists_start_eq (hc : h.Canonical) {s : Int} (h0 : 0 ≤ s) (hw : s < week) (hs : h.Covers s)
    (hb : ¬ h.Covers (s - 1)) : ∃ i ∈ h, i.start = s := by
  obtain ⟨i, hi, k, hk⟩ := hs
  refine ⟨i, hi, ?_⟩
  by_contra hne
  have hbi := hc.bounds i hi
  by_cases hlt : i.start < s + k * week
  · refine hb ⟨i, hi, k, ?_⟩
    simp only [Interval.mem_iff] at *
    omega
  · simp only [Interval.mem_iff, week, spill] at *
    omega

/-- Openings on the cycle are apart: a second is held by one interval, and after one number of weeks. -/
theorem eq_of_mem (hc : h.Canonical) (hi : i ∈ h) (hj : j ∈ h) {t k m : Int} (hk : t + k * week ∈ i)
    (hm : t + m * week ∈ j) : k = m ∧ i = j := by
  have turns_le : ∀ {x y : Interval} {k m : Int}, x ∈ h → y ∈ h → t + k * week ∈ x →
      t + m * week ∈ y → k ≤ m := by
    intro x y k m hx hy hk hm
    by_contra hlt
    have hbx := hc.bounds x hx
    have hby := hc.bounds y hy
    have hw := hc.wrap_lt hy hx
    simp only [Interval.mem_iff, week, spill] at *
    omega
  have hkm : k = m := Int.le_antisymm (turns_le hi hj hk hm) (turns_le hj hi hm hk)
  refine ⟨hkm, ?_⟩
  rw [← hkm] at hm
  rcases hc.separated.eq_or_lt hi hj with hij | hlt | hlt
  · exact hij
  · exact absurd (Int.lt_of_lt_of_le hk.2 (Int.le_of_lt hlt)) (Int.not_lt.2 hm.1)
  · exact absurd (Int.lt_of_lt_of_le hm.2 (Int.le_of_lt hlt)) (Int.not_lt.2 hk.1)

theorem isOpenAt_iff_covers (hc : h.Canonical) {t : Int} : h.isOpenAt t = true ↔ h.Covers t := by
  simp only [isOpenAt, List.any_eq_true, decide_eq_true_eq]
  refine exists_congr fun i => and_congr_right fun hi => ?_
  have hb := hc.bounds i hi
  constructor
  · rintro (ht | ht)
    · exact ⟨-(t / week), by simp only [Interval.mem_iff, week] at *; omega⟩
    · exact ⟨1 - t / week, by simp only [Interval.mem_iff, week] at *; omega⟩
  · rintro ⟨k, hk⟩
    simp only [Interval.mem_iff, week, spill] at *
    omega

/-! ### The intervals, read off coverage -/

/-- Canonical hours that never close are one interval of a whole week. -/
theorem hasFullWeek_iff_covers (hc : h.Canonical) : h.hasFullWeek = true ↔ ∀ t, h.Covers t := by
  constructor
  · exact covers_of_hasFullWeek
  · intro hall
    have hweek : Canonical [⟨0, week⟩] := canonical_iff_normalize_eq.2 (by decide)
    have heq := hc.ext hweek fun t => iff_of_true (hall t) (covers_of_hasFullWeek (by decide) t)
    rw [heq]
    decide

/-- The seam cuts an opening just when one is open there and past the first `spill` seconds of the
week. -/
theorem meetsAtSeam_iff_covers (hc : h.Canonical) (hfull : ¬ h.hasFullWeek = true) :
    h.MeetsAtSeam ↔ ∀ t, -1 ≤ t → t ≤ spill → h.Covers t := by
  constructor
  · intro hm t h1 ht
    by_cases h0 : 0 ≤ t
    · exact hc.covers_of_meetsAtSeam hm h0 ht
    · obtain ⟨b, mid, a, rfl⟩ := meetsAtSeam_iff.1 hm
      have hb : 0 ≤ a ∧ a < week ∧ a < week ∧ week ≤ week + spill := hc.bounds ⟨a, week⟩ (by simp)
      refine ⟨⟨a, week⟩, by simp, 1, ?_⟩
      simp only [Interval.mem_iff]
      omega
  · intro ht
    obtain ⟨i, hi, k, hk⟩ := ht 0 (by decide) (by decide)
    have hb := hc.bounds i hi
    -- what is open at the seam starts there, or it has run past the end of the week
    obtain rfl | rfl : k = 0 ∨ k = 1 := by
      simp only [Interval.mem_iff, week, spill] at *
      omega
    · have hs : i.start = 0 := by
        have := hk.1
        omega
      exact (hc.covers_before hfull hi (by rw [hs]; exact ht (-1) (by decide) (by decide))).1
    · have hstop := (covers_add_week 1).2 (ht (i.stop - week) (by have := hk.2; omega) (by omega))
      rw [show i.stop - week + 1 * week = i.stop by omega] at hstop
      exact (hc.covers_stop hfull hi hstop).1

/-- The openings that the seam cuts end with the week. -/
theorem stop_le_of_meetsAtSeam (hc : h.Canonical) (hm : h.MeetsAtSeam) (hi : i ∈ h) :
    i.stop ≤ week := by
  obtain ⟨b, mid, a, rfl⟩ := meetsAtSeam_iff.1 hm
  rw [← List.cons_append] at hi
  rcases List.mem_append.1 hi with hi | hi
  · exact hc.onlyLast i (by rwa [← List.cons_append, List.dropLast_concat])
  · obtain rfl := List.mem_singleton.1 hi
    exact Int.le_refl week

/-- Intervals start where coverage begins, and at the seam if it cuts an opening. -/
theorem exists_start_eq_iff (hc : h.Canonical) (hfull : ¬ h.hasFullWeek = true) {s : Int} (h0 : 0 ≤ s)
    (hw : s < week) : (∃ i ∈ h, i.start = s) ↔
      h.Covers s ∧ (¬ h.Covers (s - 1) ∨ h.MeetsAtSeam ∧ s = 0) := by
  constructor
  · rintro ⟨i, hi, rfl⟩
    refine ⟨⟨i, hi, Interval.covers_of_mem (Interval.start_mem (hc.proper i hi))⟩, ?_⟩
    exact or_iff_not_imp_left.2 fun hb => hc.covers_before hfull hi (not_not.1 hb)
  · rintro ⟨hs, hb | ⟨hm, rfl⟩⟩
    · exact hc.exists_start_eq h0 hw hs hb
    · obtain ⟨b, mid, a, rfl⟩ := meetsAtSeam_iff.1 hm
      exact ⟨⟨0, b⟩, by simp, rfl⟩

/-- An interval goes on as long as coverage does, short of a seam that cuts it. -/
theorem mem_iff_run (hc : h.Canonical) (hfull : ¬ h.hasFullWeek = true) (hi : i ∈ h) {t : Int}
    (hs : i.start ≤ t) :
    t ∈ i ↔ (∀ v, i.start ≤ v → v ≤ t → h.Covers v) ∧ (h.MeetsAtSeam → t < week) := by
  constructor
  · intro ht
    refine ⟨fun v h0 hv => ⟨i, hi, Interval.covers_of_mem ⟨h0, Int.lt_of_le_of_lt hv ht.2⟩⟩, fun hm => ?_⟩
    exact Int.lt_of_lt_of_le ht.2 (hc.stop_le_of_meetsAtSeam hm hi)
  · rintro ⟨hrun, hseam⟩
    refine ⟨hs, ?_⟩
    by_contra hlt
    have hstart := (hc.bounds i hi).2.2.1
    obtain ⟨hm, hw⟩ := hc.covers_stop hfull hi (hrun i.stop (by omega) (by omega))
    have ht := hseam hm
    omega

end OpeningHours.Hours.Canonical
