import OpeningHours.Proofs.Hours.Count
import OpeningHours.Proofs.Hours.Rotation

/-!
What a replaced day shows, whatever was there before. The new openings are merged and clipped to the day's
window; those that start before the next midnight are shown in order. Two things can happen at the ends of the
window. An opening from midnight on becomes part of the day before, if that stays open up to midnight, and is
not shown; only a Monday opening that is too long to be joined over the seam stays apart. And an opening of
Sunday that fills the window to its end is cut at midnight, if Monday stays open from there. What starts past
the next midnight is shown by the next day.
-/

namespace OpeningHours.Hours

/-- The new opening `p` of day `d` becomes part of the day before. -/
def JoinsDayBefore (h : Hours) (d : Weekday) (p : Interval) : Prop :=
  p.start = 0 ∧ (h.clear d).isOpenAt (d.midnight - 1) = true ∧ (d ≠ Weekday.monday ∨ p.stop ≤ spill)

/-- The new opening `p` of Sunday goes on into what is left of Monday. -/
def RunsIntoMonday (h : Hours) (d : Weekday) (p : Interval) : Prop :=
  d = Weekday.sunday ∧ p.stop = day + spill ∧ (h.clear d).isOpenAt spill = true

instance (h : Hours) (d : Weekday) (p : Interval) : Decidable (h.JoinsDayBefore d p) :=
  inferInstanceAs (Decidable (_ ∧ _ ∧ _))

instance (h : Hours) (d : Weekday) (p : Interval) : Decidable (h.RunsIntoMonday d p) :=
  inferInstanceAs (Decidable (_ ∧ _ ∧ _))

/-- The part of the new opening `p` that day `d` shows. -/
def shownPart (h : Hours) (d : Weekday) (p : Interval) : Interval :=
  if h.RunsIntoMonday d p then ⟨p.start, day⟩ else p

theorem mem_shownPart {h : Hours} {d : Weekday} {p : Interval} {u : Int} :
    u ∈ h.shownPart d p ↔ u ∈ p ∧ (h.RunsIntoMonday d p → u < day) := by
  unfold shownPart
  split_ifs with hr
  · have hstop := hr.2.1
    rw [imp_iff_right hr]
    simp only [Interval.mem_iff, spill] at *
    omega
  · exact (and_iff_left fun h => absurd h hr).symm

@[simp] theorem shownPart_start (h : Hours) (d : Weekday) (p : Interval) :
    (h.shownPart d p).start = p.start := by
  unfold shownPart
  split_ifs <;> rfl

theorem shownPart_stop_le {h : Hours} {d : Weekday} (p : Interval) : (h.shownPart d p).stop ≤ p.stop := by
  unfold shownPart
  split_ifs with hr
  · show day ≤ p.stop
    rw [hr.2.1]
    decide
  · exact Int.le_refl _

theorem proper_shownPart {h : Hours} {d : Weekday} {p : Interval} (hp : p.Proper) (hday : p.start < day) :
    (h.shownPart d p).Proper := by
  unfold shownPart
  split_ifs
  · exact hday
  · exact hp

/-! ### The clipped openings -/

variable {h r : Hours} {d : Weekday}

theorem separated_clip (r : Hours) : r.clip.Separated := by
  refine ⟨proper_clip, ?_⟩
  rw [clip, List.pairwise_filter, List.pairwise_map]
  refine (separated_merge r).apart.imp fun {i j} hij hi hj => ?_
  have hlast := (Interval.mem_inter.1 (Interval.last_mem (of_decide_eq_true hi))).1.2
  have hfirst := (Interval.mem_inter.1 (Interval.start_mem (of_decide_eq_true hj))).1.1
  omega

/-- Clipping beforehand changes nothing. -/
theorem replace_clip : h.replace d r.clip = h.replace d r := by
  apply (canonical_replace h d _).ext (canonical_replace h d _)
  intro t
  rw [covers_replace, covers_replace]
  split_ifs with ht
  · rw [holds_clip]
    exact and_iff_left ⟨Int.emod_nonneg _ (by decide), ht⟩
  · rfl

theorem covers_replace_clip {v : Int} (h0 : 0 ≤ v) (hv : v < day + spill) :
    (h.replace d r).Covers (d.midnight + v) ↔ r.clip.Holds v := by
  rw [← replace_clip, covers_replace_window h0 hv, (separated_clip r).merge_eq]

theorem covers_replace_before_midnight :
    (h.replace d r).Covers (d.midnight - 1) ↔ (h.clear d).isOpenAt (d.midnight - 1) = true := by
  rw [covers_replace_of_not_inWindow Weekday.not_inWindow_before, (canonical_clear h d).isOpenAt_iff_covers]

section Opening

variable {p : Interval} (hp : p ∈ r.clip)

include hp

/-- A new opening is held up to its end and no further. -/
theorem holds_clip_run_iff {s u : Int} (hs : s ∈ p) :
    (∀ v, s ≤ v → v ≤ u → r.clip.Holds v) ↔ u < p.stop := by
  constructor
  · intro hrun
    by_contra hlt
    exact (separated_clip r).not_holds_stop hp (hrun _ (Int.le_of_lt hs.2) (Int.not_lt.1 hlt))
  · intro hu v hsv hvu
    exact ⟨p, hp, Int.le_trans hs.1 hsv, Int.lt_of_le_of_lt hvu hu⟩

/-- Coverage goes on through a new opening up to its end, and within the window no further. -/
theorem covers_replace_run_iff {u : Int} (hu : u < day + spill) :
    (∀ v, p.start ≤ v → v ≤ u → (h.replace d r).Covers (d.midnight + v)) ↔ u < p.stop := by
  have h0 := (clip_bounds p hp).1
  rw [← holds_clip_run_iff hp (Interval.start_mem (proper_clip p hp))]
  refine forall_congr' fun v => imp_congr_right fun hv => imp_congr_right fun hvu => ?_
  exact covers_replace_clip (by omega) (by omega)

/-! ### Where a new opening starts -/

/-- An opening of Monday from midnight on is cut from Sunday's just if it is longer than `spill` seconds. -/
theorem meetsAtSeam_replace_monday (hfull : ¬ (h.replace .monday r).hasFullWeek = true) (h0 : p.start = 0)
    (hbefore : (h.replace .monday r).Covers (Weekday.monday.midnight - 1)) :
    (h.replace .monday r).MeetsAtSeam ↔ spill < p.stop := by
  have hrun := covers_replace_run_iff (h := h) (d := .monday) (u := spill) hp (by decide)
  have hmonday : Weekday.monday.midnight = 0 := rfl
  rw [(canonical_replace h _ r).meetsAtSeam_iff_covers hfull, ← hrun, h0]
  simp only [hmonday, Int.zero_add, Int.zero_sub] at hbefore ⊢
  refine ⟨fun hall v h0 hv => hall v (by omega) hv, fun hall v h1 hv => ?_⟩
  rcases Int.lt_or_le v 0 with hneg | hnonneg
  · obtain rfl : v = -1 := by omega
    exact hbefore
  · exact hall v hnonneg hv

/-- A new opening starts where it did, unless it becomes part of the day before. -/
theorem startsAt_replace_iff (hfull : ¬ (h.replace d r).hasFullWeek = true) (hday : p.start < day) :
    (h.replace d r).StartsAt d p.start ↔ ¬ h.JoinsDayBefore d p := by
  have h0 := (clip_bounds p hp).1
  rw [startsAt_iff h0, JoinsDayBefore]
  rcases Int.lt_or_eq_of_le h0 with hpos | hzero
  · have hbefore : ¬ (h.replace d r).Covers (d.midnight + p.start - 1) := by
      rw [show d.midnight + p.start - 1 = d.midnight + (p.start - 1) by omega,
        covers_replace_clip (by omega) (by simp only [day, spill] at *; omega)]
      exact (separated_clip r).not_holds_before hp
    exact iff_of_true (.inl hbefore) fun hjoin => by omega
  · rw [← hzero, Int.add_zero, ← covers_replace_before_midnight (r := r)]
    by_cases hbefore : (h.replace d r).Covers (d.midnight - 1)
    · by_cases hd : d = .monday
      · subst hd
        have hseam := meetsAtSeam_replace_monday hp hfull hzero.symm hbefore
        simp [hbefore, hseam]
      · simp [hbefore, hd]
    · simp [hbefore]

/-! ### How far it is shown -/

/-- A new opening of Sunday that goes on into Monday is cut at the seam. -/
theorem meetsAtSeam_of_runsIntoMonday (hfull : ¬ (h.replace d r).hasFullWeek = true) (hday : p.start < day)
    (hinto : h.RunsIntoMonday d p) : (h.replace d r).MeetsAtSeam := by
  obtain ⟨rfl, hstop, hleft⟩ := hinto
  have hsun : Weekday.sunday.midnight = 6 * day := rfl
  refine ((canonical_replace h _ r).meetsAtSeam_iff_covers hfull).2 fun t h1 ht => ?_
  rcases Int.lt_or_eq_of_le ht with hlt | rfl
  · rw [← covers_add_week 1,
      show t + 1 * week = Weekday.sunday.midnight + (t + day) by simp only [hsun, week, day]; omega,
      covers_replace_clip (by simp only [day] at *; omega) (by omega)]
    exact ⟨p, hp, by omega, by omega⟩
  · rw [covers_replace_of_not_inWindow (by decide)]
    exact (canonical_clear h _).isOpenAt_iff_covers.1 hleft

/-- Coverage goes on from the start of a new opening through what is shown of it. -/
theorem runsThrough_replace_iff (hfull : ¬ (h.replace d r).hasFullWeek = true) (hday : p.start < day)
    {u : Int} (hpu : p.start ≤ u) (hu : u < day + spill) :
    (h.replace d r).RunsThrough d p.start u ↔ u ∈ h.shownPart d p := by
  have hspill := (clip_bounds p hp).2
  rw [mem_shownPart, runsThrough_iff hu, covers_replace_run_iff hp hu, Interval.mem_iff,
    and_iff_right hpu]
  refine and_congr_right fun hup => ⟨fun hseam hinto => ?_, fun hinto hm hd => ?_⟩
  · exact hseam (meetsAtSeam_of_runsIntoMonday hp hfull hday hinto) hinto.1
  · by_contra hlt
    -- a seam that cuts `p` lies inside it, which leaves only an opening that runs into Monday
    have hsun : d.midnight = 6 * day := by rw [hd]; rfl
    have hw : week - d.midnight ∈ p := by
      simp only [Interval.mem_iff, week, day] at *
      omega
    rw [← replace_clip] at hm
    obtain ⟨-, hstop, hleft⟩ :=
      sunday_of_meetsAtSeam hm ((separated_clip r).merge_eq.symm ▸ hp) hspill hw
    exact hlt (hinto ⟨hd, hstop, (canonical_clear h d).isOpenAt_iff_covers.2 hleft⟩)

end Opening

/-! ### The day itself -/

/-- Within the window an opening starts only where a new one does. -/
theorem start_eq_of_startsAt {p : Interval} (hp : p ∈ r.clip) {s : Int} (hs : s ∈ p) (hday : s < day)
    (hstart : (h.replace d r).StartsAt d s) : p.start = s := by
  have hd := d.midnight_bounds
  have h0 := (clip_bounds p hp).1
  by_contra hne
  have hmem : s - 1 ∈ p := by
    simp only [Interval.mem_iff] at *
    omega
  have hfirst := hmem.1
  rcases hstart with hbefore | ⟨-, hzero⟩
  · exact hbefore ((covers_replace_clip (by omega) (by simp only [spill]; omega)).2 ⟨p, hp, hmem⟩)
  · omega

theorem holds_view_replace_iff (hfull : ¬ (h.replace d r).hasFullWeek = true) {u : Int} :
    ((h.replace d r).view d).Holds u ↔
      ∃ p ∈ r.clip, (p.start < day ∧ ¬ h.JoinsDayBefore d p) ∧ u ∈ h.shownPart d p := by
  rw [(canonical_replace h d r).holds_view_iff_run hfull]
  constructor
  · rintro ⟨s, ⟨h0, hday, hsu, hu⟩, hstart, hrun⟩
    obtain ⟨p, hp, hs⟩ := (covers_replace_clip h0 (by omega)).1 (hrun.1 s (Int.le_refl s) hsu)
    obtain rfl := start_eq_of_startsAt hp hs hday hstart
    exact ⟨p, hp, ⟨hday, (startsAt_replace_iff hp hfull hday).1 hstart⟩,
      (runsThrough_replace_iff hp hfull hday hsu hu).1 hrun⟩
  · rintro ⟨p, hp, ⟨hday, hjoin⟩, hu⟩
    obtain ⟨h0, hspill⟩ := clip_bounds p hp
    obtain ⟨hpu, hup⟩ := (mem_shownPart.1 hu).1
    have hlt : u < day + spill := Int.lt_of_lt_of_le hup hspill
    exact ⟨p.start, ⟨h0, hday, hpu, hlt⟩, (startsAt_replace_iff hp hfull hday).2 hjoin,
      (runsThrough_replace_iff hp hfull hday hpu hlt).2 hu⟩

theorem view_replace_eq (hfull : ¬ (h.replace d r).hasFullWeek = true) :
    (h.replace d r).view d =
      (r.clip.filter fun p => p.start < day ∧ ¬ h.JoinsDayBefore d p).map (h.shownPart d) := by
  have hs := (separated_clip r).sublist (List.filter_sublist
    (p := fun p => decide (p.start < day ∧ ¬ h.JoinsDayBefore d p)))
  apply (separated_view _ d).ext (hs.map ?_ ?_)
  · intro u
    rw [holds_view_replace_iff hfull]
    simp only [Holds, List.mem_map, List.mem_filter, decide_eq_true_eq, exists_exists_and_eq_and]
    simp only [and_assoc]
  · intro p hp
    simp only [List.mem_filter, decide_eq_true_eq] at hp
    exact proper_shownPart (proper_clip p hp.1) hp.2.1
  · intro p _ q _ hpq
    have hstop := shownPart_stop_le (h := h) (d := d) p
    rw [shownPart_start]
    omega

/-! ### The day after -/

/-- Where an opening starts on a day, an interval of its view starts, and it goes on as long as the hours
stay open, short of the end of the week. -/
theorem Canonical.exists_mem_view {h : Hours} (hc : h.Canonical) {d : Weekday} {s e : Int} (h0 : 0 ≤ s)
    (hday : s < day) (hse : s < e) (hend : e ≤ day + spill) (hweek : d.midnight + e ≤ week)
    (hbefore : ¬ h.Covers (d.midnight + (s - 1)))
    (hopen : ∀ v, s ≤ v → v < e → h.Covers (d.midnight + v)) :
    ∃ i ∈ h.view d, i.start = s ∧ e ≤ i.stop := by
  have hfull : ¬ h.hasFullWeek = true := fun hf => hbefore (covers_of_hasFullWeek hf _)
  have hs := separated_view h d
  have hshown : ∀ v, s ≤ v → v < e → (h.view d).Holds v := by
    intro v hsv hve
    refine (hc.holds_view_iff_run hfull).2 ⟨s, ⟨h0, hday, hsv, by omega⟩, .inl hbefore, ?_, ?_⟩
    · exact fun w hsw hwv => hopen w hsw (by omega)
    · exact fun _ => by omega
  obtain ⟨i, hi, hstart⟩ := hs.exists_start_eq_iff.2
    ⟨hshown s (Int.le_refl s) hse, fun ht => hbefore (hc.covers_of_holds_view ht)⟩
  refine ⟨i, hi, hstart, ?_⟩
  by_contra hlt
  have hproper : i.start < i.stop := hs.proper i hi
  exact hs.not_holds_stop hi (hshown i.stop (by omega) (by omega))

/-- A new opening past the next midnight starts an opening of the next day. -/
theorem exists_view_next_day {p : Interval} (hp : p ∈ r.clip) (hlate : day ≤ p.start) :
    ∃ i ∈ (h.replace d r).view (d + 1), i.start = p.start - day ∧ p.stop - day ≤ i.stop := by
  have hd := (d + 1).midnight_bounds
  have hproper : p.start < p.stop := proper_clip p hp
  have hspill := (clip_bounds p hp).2
  have hcovers : ∀ v, -1 ≤ v → v < spill →
      ((h.replace d r).Covers ((d + 1).midnight + v) ↔ r.clip.Holds (day + v)) := by
    intro v h1 hv
    rw [covers_next_midnight, covers_replace_clip (by simp only [day]; omega) (by omega)]
  apply (canonical_replace h d r).exists_mem_view
  · omega
  · simp only [day, spill] at *
    omega
  · omega
  · simp only [day, spill] at *
    omega
  · simp only [week, day, spill] at *
    omega
  · rw [hcovers _ (by omega) (by omega), show day + (p.start - day - 1) = p.start - 1 by omega]
    exact (separated_clip r).not_holds_before hp
  · intro v hsv hve
    exact (hcovers v (by omega) (by omega)).2 ⟨p, hp, by omega, by omega⟩

/-- What a replaced day shows. Unless the hours are always open afterwards, it is the new openings that start
before the next midnight, in order, without one that becomes part of the day before, and up to midnight for
one that goes on into Monday. Each new opening that starts later starts an opening of the next day. -/
theorem view_of_replaced (h r : Hours) (d : Weekday) :
    ((h.replace d r).hasFullWeek = true → (h.replace d r).view d = [⟨0, day⟩]) ∧
    (¬ (h.replace d r).hasFullWeek = true → (h.replace d r).view d =
      (r.clip.filter fun p => p.start < day ∧ ¬ h.JoinsDayBefore d p).map (h.shownPart d)) ∧
    ∀ p ∈ r.clip, day ≤ p.start →
      ∃ i ∈ (h.replace d r).view (d + 1), i.start = p.start - day ∧ p.stop - day ≤ i.stop :=
  ⟨fun hfull => if_pos hfull, view_replace_eq, fun _ => exists_view_next_day⟩

/-- Open from Saturday 22:00 to Monday 12:00, then Sunday is replaced by midnight to 01:00 and 20:00 to 30:00:
the first hour is Saturday's, and the evening is cut at midnight. In a closed week, Monday 25:00 to 26:00
is shown by Tuesday; and a week that only lacked Tuesday's window shows a whole Tuesday. -/
theorem view_of_replaced_sunday :
    (Hours.replace [⟨511200, 648000⟩] Weekday.sunday [⟨72000, 108000⟩, ⟨0, 3600⟩]).view Weekday.sunday =
      [⟨72000, 86400⟩] ∧
    (∃ i ∈ (Hours.replace [] Weekday.monday [⟨90000, 93600⟩]).view 1, i.start = 3600 ∧ 7200 ≤ i.stop) ∧
    (Hours.replace [⟨194400, 691200⟩] 1 [⟨0, 108000⟩]).view 1 = [⟨0, day⟩] := by
  refine ⟨?_, ?_, (view_of_replaced [⟨194400, 691200⟩] [⟨0, 108000⟩] 1).1 (by decide)⟩
  · rw [(view_of_replaced [⟨511200, 648000⟩] [⟨72000, 108000⟩, ⟨0, 3600⟩] Weekday.sunday).2.1 (by decide)]
    decide
  · exact (view_of_replaced [] [⟨90000, 93600⟩] Weekday.monday).2.2 ⟨90000, 93600⟩ (by decide) (by decide)

end OpeningHours.Hours
