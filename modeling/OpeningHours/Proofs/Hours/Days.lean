import Mathlib.Algebra.BigOperators.Group.Finset.Piecewise
import Mathlib.Algebra.Ring.Int.Defs
import Mathlib.Data.Fintype.Fin
import OpeningHours.Proofs.Hours.View

/-!
The views of all seven days together. Every interval of canonical hours starts on one day, and that day
shows it up to the end of its window. So no second is shown twice, nothing is shown that is closed, and what
is not shown at all are the parts of intervals past those windows. When no interval runs that far, the views
put together are the hours again. Hours that are always open show as seven whole days.
-/

namespace OpeningHours

namespace Weekday

theorem ofMoment_eq_iff {t : Int} {d : Weekday} : ofMoment t = d ↔ (t - d.midnight) % week < day := by
  have hd := d.isLt
  rw [Fin.ext_iff]
  simp only [ofMoment, Fin.ofNat, midnight, week, day]
  omega

/-- Within the first week, a day holds the seconds from its midnight to the next. -/
theorem ofMoment_eq_iff_of_lt {t : Int} {d : Weekday} (h0 : 0 ≤ t) (hw : t < week) :
    ofMoment t = d ↔ d.midnight ≤ t ∧ t < d.midnight + day := by
  have hd := d.midnight_bounds
  rw [ofMoment_eq_iff]
  simp only [week, day] at *
  omega

end Weekday

namespace Interval

/-- The end of the window of the day that an interval starts on. -/
def reach (i : Interval) : Int := (Weekday.ofMoment i.start).midnight + day + spill

/-- The number of seconds by which an interval runs past that window. -/
def overrun (i : Interval) : Int := max 0 (i.stop - i.reach)

/-- The part of an interval that its day shows. -/
def shown (i : Interval) : Interval := ⟨i.start, min i.stop i.reach⟩

theorem mem_shown {i : Interval} {t : Int} : t ∈ i.shown ↔ t ∈ i ∧ t < i.reach := by
  simp only [shown, mem_iff]
  omega

theorem start_lt_reach {i : Interval} (h0 : 0 ≤ i.start) (hw : i.start < week) : i.start < i.reach := by
  have hday := (Weekday.ofMoment_eq_iff_of_lt h0 hw).1 rfl
  simp only [reach, spill]
  omega

theorem duration_shown_add_overrun {i : Interval} (hi : i.Proper) (h0 : 0 ≤ i.start)
    (hw : i.start < week) : i.shown.duration + i.overrun = i.duration := by
  have hreach := start_lt_reach h0 hw
  simp only [Proper] at hi
  simp only [shown, duration, overrun]
  omega

theorem shown_of_overrun_eq_zero {i : Interval} (hi : i.overrun = 0) : i.shown = i := by
  have hmin : min i.stop i.reach = i.stop := by
    simp only [overrun] at hi
    omega
  rw [shown, hmin]

@[simp] theorem duration_shift (i : Interval) (k : Int) : (i.shift k).duration = i.duration := by
  simp only [shift, duration]
  omega

end Interval

namespace Hours

theorem holds_shift {h : Hours} {k t : Int} : (h.shift k).Holds t ↔ h.Holds (t - k) := by
  simp only [Holds, shift, List.mem_map, exists_exists_and_eq_and, Interval.mem_shift]

theorem Separated.shift {h : Hours} (hh : h.Separated) (k : Int) : (h.shift k).Separated :=
  hh.map (fun i hi => Interval.proper_shift.2 (hh.proper i hi))
    fun _ _ _ _ hij => Int.add_lt_add_right hij k

/-! ### Totals -/

theorem total_eq_sum (h : Hours) : h.total = (h.map (·.duration)).sum := by
  induction h with
  | nil => rfl
  | cons i h ih => rw [List.map_cons, List.sum_cons, ← ih, total, List.foldr_cons, ← total]

theorem total_shift (h : Hours) (k : Int) : (h.shift k).total = h.total := by
  rw [total_eq_sum, total_eq_sum, shift, List.map_map]
  exact congrArg List.sum (List.map_congr_left fun i _ => i.duration_shift k)

/-- Each interval counts for the one day that it starts on. -/
theorem sum_ofMoment (h : Hours) (f : Interval → Int) :
    ∑ d, ((h.filter fun i => Weekday.ofMoment i.start = d).map f).sum = (h.map f).sum := by
  induction h with
  | nil => simp
  | cons i h ih =>
    have hsplit : ∀ d, (((i :: h).filter fun j => Weekday.ofMoment j.start = d).map f).sum =
        (if Weekday.ofMoment i.start = d then f i else 0) +
          ((h.filter fun j => Weekday.ofMoment j.start = d).map f).sum := by
      intro d
      by_cases hd : Weekday.ofMoment i.start = d <;> simp [hd]
    simp only [hsplit, Finset.sum_add_distrib, ih, Finset.sum_ite_eq, Finset.mem_univ, if_true,
      List.map_cons, List.sum_cons]

/-! ### What a day shows, on the week -/

/-- The intervals that start on day `d`, up to the end of its window. -/
def shownOn (h : Hours) (d : Weekday) : Hours :=
  (h.filter fun i => Weekday.ofMoment i.start = d).map (·.shown)

namespace Canonical

variable {h : Hours}

theorem separated_shownOn (hc : h.Canonical) (d : Weekday) : (h.shownOn d).Separated := by
  apply (hc.separated.sublist List.filter_sublist).map
  · intro i hi
    have hb := hc.bounds i (List.mem_of_mem_filter hi)
    have hreach := Interval.start_lt_reach hb.1 hb.2.1
    simp only [Interval.Proper, Interval.shown]
    omega
  · intro i _ j _ hij
    simp only [Interval.shown]
    omega

/-- A view, moved back onto the week. -/
theorem view_shift_midnight (hc : h.Canonical) (hfull : ¬ h.hasFullWeek = true) (d : Weekday) :
    (h.view d).shift d.midnight = h.shownOn d := by
  apply ((separated_view h d).shift _).ext (hc.separated_shownOn d)
  intro t
  rw [holds_shift, hc.holds_view hfull]
  simp only [Holds, shownOn, List.mem_map, List.mem_filter, decide_eq_true_eq,
    exists_exists_and_eq_and, Interval.mem_shown]
  simp only [and_assoc]
  refine exists_congr fun i => and_congr_right fun hi => ?_
  have hb := hc.bounds i hi
  rw [Weekday.ofMoment_eq_iff_of_lt hb.1 hb.2.1, and_assoc,
    show d.midnight + (t - d.midnight) = t by omega]
  refine and_congr_right fun hlo => and_congr_right fun hhi => and_congr_right fun _ => ?_
  have hd := (Weekday.ofMoment_eq_iff_of_lt hb.1 hb.2.1).2 ⟨hlo, hhi⟩
  rw [Interval.reach, hd]
  omega

/-- The days show all of the hours, less what intervals run past the windows of their days. -/
theorem sum_total_view (hc : h.Canonical) (hfull : ¬ h.hasFullWeek = true) :
    ∑ d, (h.view d).total = h.total - (h.map Interval.overrun).sum := by
  have hview : ∀ d, (h.view d).total =
      ((h.filter fun i => Weekday.ofMoment i.start = d).map (·.shown.duration)).sum := by
    intro d
    rw [← total_shift _ d.midnight, hc.view_shift_midnight hfull, total_eq_sum, shownOn, List.map_map]
    rfl
  have hsplit : h.total = (h.map (·.shown.duration)).sum + (h.map Interval.overrun).sum := by
    rw [total_eq_sum, ← List.sum_map_add]
    refine congrArg List.sum (List.map_congr_left fun i hi => ?_)
    have hb := hc.bounds i hi
    exact (Interval.duration_shown_add_overrun (hc.proper i hi) hb.1 hb.2.1).symm
  simp only [hview]
  rw [sum_ofMoment, hsplit, add_sub_cancel_right]

/-- A day shows the seconds that are reached, within its window, by the intervals that start on it. -/
theorem covers_view_iff (hc : h.Canonical) (hfull : ¬ h.hasFullWeek = true) {d : Weekday} {t : Int} :
    ((h.view d).shift d.midnight).Covers t ↔
      ∃ i ∈ h, Weekday.ofMoment i.start = d ∧ i.shown.Covers t := by
  rw [hc.view_shift_midnight hfull]
  simp only [covers_iff, shownOn, List.mem_map, List.mem_filter, decide_eq_true_eq,
    exists_exists_and_eq_and]
  simp only [and_assoc]

end Canonical

/-- Hours that are always open show on each day as the day itself. -/
theorem covers_view_of_hasFullWeek {h : Hours} (hfull : h.hasFullWeek = true) {d : Weekday} {t : Int} :
    ((h.view d).shift d.midnight).Covers t ↔ Weekday.ofMoment t = d := by
  rw [view, if_pos hfull, covers_shift, covers_cons, or_iff_left (not_covers_nil _),
    Interval.covers_iff_mem_emod (Int.le_refl 0) (by decide), Weekday.ofMoment_eq_iff]
  exact and_iff_right (Int.emod_nonneg _ (by decide))

/-! ### All seven views -/

/-- The views of all days, each moved back onto the week. -/
def views (h : Hours) : Hours := Weekday.all.flatMap fun d => (h.view d).shift d.midnight

theorem covers_views {h : Hours} {t : Int} :
    h.views.Covers t ↔ ∃ d, ((h.view d).shift d.midnight).Covers t := by
  simp only [covers_iff, views, Weekday.all, List.mem_flatMap, List.mem_finRange, true_and]
  constructor
  · rintro ⟨i, ⟨d, hi⟩, ht⟩
    exact ⟨d, i, hi, ht⟩
  · rintro ⟨d, i, hi, ht⟩
    exact ⟨i, ⟨d, hi⟩, ht⟩

namespace Canonical

variable {h : Hours}

/-- No second is shown by two days. -/
theorem eq_of_covers_view (hc : h.Canonical) {d e : Weekday} {t : Int}
    (hd : ((h.view d).shift d.midnight).Covers t) (he : ((h.view e).shift e.midnight).Covers t) :
    d = e := by
  by_cases hfull : h.hasFullWeek = true
  · rw [covers_view_of_hasFullWeek hfull] at hd he
    exact hd.symm.trans he
  · obtain ⟨i, hi, rfl, k, hk⟩ := (hc.covers_view_iff hfull).1 hd
    obtain ⟨j, hj, rfl, m, hm⟩ := (hc.covers_view_iff hfull).1 he
    rw [(hc.eq_of_mem hi hj (Interval.mem_shown.1 hk).1 (Interval.mem_shown.1 hm).1).2]

/-- What is shown is open. -/
theorem covers_of_covers_view (hc : h.Canonical) {d : Weekday} {t : Int}
    (ht : ((h.view d).shift d.midnight).Covers t) : h.Covers t := by
  by_cases hfull : h.hasFullWeek = true
  · exact covers_of_hasFullWeek hfull t
  · obtain ⟨i, hi, -, k, hk⟩ := (hc.covers_view_iff hfull).1 ht
    exact ⟨i, hi, k, (Interval.mem_shown.1 hk).1⟩

/-- Unless an interval runs past the window of its day, the views put together are the hours. -/
theorem normalize_views (hc : h.Canonical) (hall : h.hasFullWeek = true ∨ ∀ i ∈ h, i.overrun = 0) :
    h.views.normalize = h := by
  apply (canonical_normalize _).ext hc
  intro t
  rw [covers_normalize, covers_views]
  refine ⟨fun ⟨d, hd⟩ => hc.covers_of_covers_view hd, fun ht => ?_⟩
  by_cases hfull : h.hasFullWeek = true
  · exact ⟨_, (covers_view_of_hasFullWeek hfull).2 rfl⟩
  · obtain ⟨i, hi, hit⟩ := ht
    have hshown := Interval.shown_of_overrun_eq_zero (hall.resolve_left hfull i hi)
    exact ⟨_, (hc.covers_view_iff hfull).2 ⟨i, hi, rfl, by rwa [hshown]⟩⟩

end Canonical

/-- The views of the seven days share no second and show nothing that is closed. Of hours that close at
some time, they leave out just the seconds by which intervals run past the windows of their days. Where
there are none, or the hours never close, the views put together are the hours again. -/
theorem views_partition (h : Hours) :
    (∀ d e : Weekday, d ≠ e → ∀ t, ((h.normalize.view d).shift d.midnight).Covers t →
      ¬ ((h.normalize.view e).shift e.midnight).Covers t) ∧
    (∀ (d : Weekday) t, ((h.normalize.view d).shift d.midnight).Covers t → h.normalize.Covers t) ∧
    (¬ h.normalize.hasFullWeek = true →
      ∑ d, (h.normalize.view d).total =
        h.normalize.total - (h.normalize.map Interval.overrun).sum) ∧
    ((h.normalize.hasFullWeek = true ∨ ∀ i ∈ h.normalize, i.overrun = 0) →
      h.normalize.views.normalize = h.normalize) := by
  have hc := canonical_normalize h
  refine ⟨?_, ?_, hc.sum_total_view, hc.normalize_views⟩
  · intro d e hde t hd he
    exact hde (hc.eq_of_covers_view hd he)
  · intro d t
    exact hc.covers_of_covers_view

/-- From Monday 08:00 to Wednesday 03:00 and from Sunday 22:00 to Monday 03:00, 48 hours in all. Monday shows
22 hours, which Tuesday does not show again, and Sunday 5; of the Sunday night alone nothing is lost. -/
theorem views_partition_long :
    ¬ (((Hours.normalize [⟨28800, 183600⟩, ⟨597600, 615600⟩]).view 1).shift day).Covers 90000 ∧
    (Hours.normalize [⟨28800, 183600⟩, ⟨597600, 615600⟩]).Covers 90000 ∧
    (Hours.normalize [⟨28800, 183600⟩, ⟨597600, 615600⟩]).total = 48 * 3600 ∧
    ∑ d, ((Hours.normalize [⟨28800, 183600⟩, ⟨597600, 615600⟩]).view d).total = 27 * 3600 ∧
    (Hours.normalize [⟨597600, 615600⟩]).views.normalize = Hours.normalize [⟨597600, 615600⟩] := by
  obtain ⟨honce, hopen, hsum, -⟩ := views_partition [⟨28800, 183600⟩, ⟨597600, 615600⟩]
  have hmonday : (((Hours.normalize [⟨28800, 183600⟩, ⟨597600, 615600⟩]).view Weekday.monday).shift
      Weekday.monday.midnight).Covers 90000 := ⟨⟨28800, 108000⟩, by decide, 0, by decide⟩
  refine ⟨honce _ _ (by decide) _ hmonday, hopen _ _ hmonday, by decide, ?_, ?_⟩
  · exact (hsum (by decide)).trans (by decide)
  · exact (views_partition [⟨597600, 615600⟩]).2.2.2 (.inr (by decide))

end Hours

end OpeningHours
