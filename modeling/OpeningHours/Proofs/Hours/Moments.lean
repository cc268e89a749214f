import OpeningHours.Proofs.Hours.Transition
import OpeningHours.Proofs.Hours.Words

/-!
Moments in words. Canonical hours lie so near the week that their images fit, and so does a place in the week. What
may not fit is the Monday before the moment that is asked about, and the answer. So it is told at every moment
whether hours are open, and of hours that are never open or always open that they do not close. Main statements:
where that Monday fits, hours in normal form next open at the least covered moment that is not past, and next close
at the least later moment at which coverage ends, if this moment fits. In the last week of all it may not.
-/

namespace OpeningHours

namespace Stored

/-! ### Answers -/

section Told

variable {found : Option Int} {w : Int32}

theorem told_some (u : Int) : told (some u) = (word u).map some := by
  rw [told]
  cases word u <;> rfl

theorem told_eq_none_iff : told found = .ok none ↔ found = none := by
  cases found with
  | none => exact iff_of_true rfl rfl
  | some u =>
    rw [told_some]
    cases word u <;> simp [Except.map]

theorem told_eq_some_iff : told found = .ok (some w) ↔ found = some w.toInt := by
  cases found with
  | none => exact iff_of_false (fun hok => by cases hok) (Option.some_ne_none _).symm
  | some u =>
    rw [told_some, Option.some_inj, eq_comm (a := u), ← word_eq_ok_iff]
    cases word u <;> simp [Except.map]

theorem told_of_fits (hf : ∀ u, found = some u → Fits u) : told found = .ok (found.map .ofInt) := by
  cases found with
  | none => rfl
  | some u =>
    rw [told_some, word_of_fits (hf u rfl)]
    rfl

end Told

/-! ### Images -/

theorem hours_ofHours {h : Hours} (hf : ∀ i ∈ h, Fits i.start ∧ Fits i.stop) : hours (ofHours h) = h := by
  rw [hours, ofHours, List.map_map]
  refine (List.map_congr_left fun i hi => ?_).trans (List.map_id h)
  simp only [Function.comp_apply, interval, (hf i hi).1.toInt_ofInt, (hf i hi).2.toInt_ofInt, id]

/-- A second is held just if it lies between the ends. -/
theorem holds_iff {i : Stored} {t : Int32} : i.holds t = true ↔ t.toInt ∈ i.interval := by
  simp only [holds, Bool.and_eq_true, decide_eq_true_eq, Int32.le_iff_toInt_le, Int32.lt_iff_toInt_lt]
  rfl

theorem toInt_wordInWeek_add (t : Int32) : (wordInWeek t + weekWord).toInt = t.toInt % week + week := by
  have h0 : 0 ≤ t.toInt % week := Int.emod_nonneg _ (by decide)
  have hw : t.toInt % week < week := Int.emod_lt_of_pos _ (by decide)
  rw [Int32.toInt_add, toInt_wordInWeek, toInt_weekWord]
  apply Int.bmod_eq_of_le <;> simp only [week] at * <;> omega

/-- Whether hours are open is told at every moment. -/
theorem isOpenAt_eq (l : List Stored) (t : Int32) : isOpenAt l t = (hours l).isOpenAt t.toInt := by
  rw [Bool.eq_iff_iff]
  simp only [isOpenAt, Hours.isOpenAt, hours, List.any_map, List.any_eq_true, Function.comp_apply, Bool.or_eq_true,
    holds_iff, toInt_wordInWeek, toInt_wordInWeek_add, decide_eq_true_eq]

/-- So near the week that the images fit. -/
def Near (i : Stored) : Prop := 0 ≤ i.interval.start ∧ i.interval.stop ≤ week + spill

theorem exists_shift {i : Stored} {k : Int32} (hstart : Fits (i.start.toInt + k.toInt))
    (hstop : Fits (i.stop.toInt + k.toInt)) :
    ∃ j, i.shift k = .ok j ∧ j.interval = i.interval.shift k.toInt := by
  obtain ⟨a, ha, hstart⟩ := exists_word hstart
  obtain ⟨b, hb, hstop⟩ := exists_word hstop
  refine ⟨⟨a, b⟩, ?_, congrArg₂ Interval.mk hstart hstop⟩
  rw [shift, ha, hb]
  rfl

theorem exists_images {i : Stored} (hi : i.Near) :
    ∃ js, i.images = .ok js ∧ hours js = Hours.images [i.interval] := by
  by_cases hp : i.interval.Proper
  · have hshift : ∀ k : Int32, -week ≤ k.toInt → k.toInt ≤ week →
        ∃ j, i.shift k = .ok j ∧ j.interval = i.interval.shift k.toInt := by
      intro k hlo hhi
      obtain ⟨h0, hw⟩ := hi
      simp only [Interval.Proper, interval] at hp h0 hw
      apply exists_shift <;> simp only [Fits, week, spill] at * <;> omega
    obtain ⟨earlier, hearlier, hminus⟩ := hshift (-weekWord) (by decide) (by decide)
    obtain ⟨same, hsame, hzero⟩ := hshift 0 (by decide) (by decide)
    obtain ⟨later, hlater, hplus⟩ := hshift weekWord (by decide) (by decide)
    refine ⟨[earlier, same, later], ?_, ?_⟩
    · rw [images, if_pos (start_lt_stop_iff.2 hp), hearlier, hsame, hlater]
      rfl
    · have hstay : i.interval.shift 0 = i.interval := by simp [Interval.shift]
      have hback : (-weekWord).toInt = -week := rfl
      simp [hours, Hours.images, hp, hminus, hzero, hplus, hstay, hback, toInt_weekWord]
  · refine ⟨[], ?_, by simp [hours, Hours.images, hp]⟩
    rw [images, if_neg (start_lt_stop_iff.not.2 hp)]
    rfl

theorem images_cons (i : Interval) (h : Hours) : Hours.images (i :: h) = Hours.images [i] ++ h.images := by
  by_cases hp : i.Proper <;> simp [Hours.images, hp]

section Canonical

variable {l : List Stored} {s t : Int32}

theorem near_of_canonical (hc : (hours l).Canonical) : ∀ i ∈ l, i.Near := by
  intro i hi
  have hb := hc.bounds i.interval (List.mem_map_of_mem hi)
  exact ⟨hb.1, hb.2.2.2⟩

theorem exists_mapM_images (hl : ∀ i ∈ l, i.Near) :
    ∃ copies, l.mapM images = .ok copies ∧ hours copies.flatten = (hours l).images := by
  induction l with
  | nil => exact ⟨[], rfl, rfl⟩
  | cons i rest ih =>
    rw [List.forall_mem_cons] at hl
    obtain ⟨front, hfront, hi⟩ := exists_images hl.1
    obtain ⟨back, hback, hrest⟩ := ih hl.2
    refine ⟨front :: back, ?_, ?_⟩
    · rw [List.mapM_cons, hfront, hback]
      rfl
    · have hcons : hours (i :: rest) = i.interval :: hours rest := rfl
      rw [hcons, images_cons, ← hi, ← hrest, hours, List.flatten_cons, List.map_append]
      rfl

theorem exists_startsAfter? (hl : ∀ i ∈ l, i.Near) :
    ∃ starts, startsAfter? s l = .ok starts ∧ starts.map (List.map (·.toInt)) =
      if (hours l).images.Holds s.toInt then none
      else some (((hours l).images.map (·.start)).filter (s.toInt < ·)) := by
  induction l with
  | nil => exact ⟨some [], rfl, by simp [hours, Hours.images, Hours.Holds]⟩
  | cons i rest ih =>
    rw [List.forall_mem_cons] at hl
    obtain ⟨copies, hcopies, hi⟩ := exists_images hl.1
    obtain ⟨starts, hstarts, hrest⟩ := ih hl.2
    have hcons : hours (i :: rest) = i.interval :: hours rest := rfl
    have hany : copies.any (·.holds s) = true ↔ (hours copies).Holds s.toInt := by
      simp only [List.any_eq_true, holds_iff, Hours.Holds, hours, List.mem_map, exists_exists_and_eq_and]
    have hfront : ((copies.map (·.start)).filter (s < ·)).map (·.toInt) =
        ((hours copies).map (·.start)).filter (s.toInt < ·) := by
      simp only [hours, List.map_map, List.filter_map, Function.comp_def, Int32.lt_iff_toInt_lt, interval]
    rw [startsAfter?, hcons, images_cons, ← hi, hcopies]
    by_cases hheld : (hours copies).Holds s.toInt
    · refine ⟨none, ?_, ?_⟩
      · exact if_pos (hany.2 hheld)
      · rw [if_pos (Hours.holds_append.2 (.inl hheld))]
        rfl
    · refine ⟨starts.map (((copies.map (·.start)).filter (s < ·)) ++ ·), ?_, ?_⟩
      · exact (if_neg (hany.not.2 hheld)).trans (by rw [hstarts]; rfl)
      · have hmap : (starts.map (((copies.map (·.start)).filter (s < ·)) ++ ·)).map (List.map (·.toInt)) =
            (starts.map (List.map (·.toInt))).map (((hours copies).map (·.start)).filter (s.toInt < ·) ++ ·) := by
          rw [← hfront]
          cases starts <;> simp
        have hiff : (hours copies ++ (hours rest).images).Holds s.toInt ↔ (hours rest).images.Holds s.toInt :=
          Hours.holds_append.trans (or_iff_right hheld)
        rw [hmap, hrest, List.map_append, List.filter_append]
        simp only [hiff]
        split_ifs <;> rfl

/-! ### Questions -/

theorem word_toInt (w : Int32) : word w.toInt = .ok w := word_eq_ok_iff.2 rfl

/-- Where the Monday before the question fits, the answer is the next opening if that fits. -/
theorem nextOpen_eq (hc : (hours l).Canonical) (hweek : Fits (t.toInt - t.toInt % week)) :
    nextOpen l t = told ((hours l).nextOpen? t.toInt) := by
  obtain ⟨monday, hmonday, hm⟩ := exists_word hweek
  obtain ⟨starts, hstarts, hs⟩ := exists_startsAfter? (s := wordInWeek t) (near_of_canonical hc)
  have heq : nextOpen l t = starts.elim (.ok (some t)) fun starts =>
      told ((starts.map (·.toInt)).min?.map (monday.toInt + ·)) := by
    rw [nextOpen, toInt_wordInWeek, hmonday]
    show (startsAfter? (wordInWeek t) l >>= _) = _
    rw [hstarts]
    cases starts <;> rfl
  rw [toInt_wordInWeek] at hs
  unfold Hours.nextOpen?
  by_cases hheld : (hours l).images.Holds (t.toInt % week)
  · rw [if_pos hheld, Option.map_eq_none_iff] at hs
    rw [heq, hs, if_pos hheld, told_some, word_toInt]
    rfl
  · rw [if_neg hheld, Option.map_eq_some_iff] at hs
    obtain ⟨starts, rfl, hs⟩ := hs
    rw [heq, if_neg hheld, Option.elim_some, hs, hm]

/-- No other question is answered. -/
theorem nextOpen_of_not_fits (hweek : ¬ Fits (t.toInt - t.toInt % week)) :
    nextOpen l t = .error ⟨t.toInt - t.toInt % week⟩ := by
  rw [nextOpen, toInt_wordInWeek, word_of_not_fits hweek]
  rfl

theorem total_nonneg (h : Hours) : 0 ≤ h.total := by
  induction h with
  | nil => exact Int.le_refl 0
  | cons i h ih =>
    have h0 : 0 ≤ i.duration := Int.le_max_left _ _
    exact Int.add_nonneg h0 ih

theorem toInt_total (hl : (hours l).total ≤ week) : (total l).toInt = (hours l).total := by
  induction l with
  | nil => rfl
  | cons i rest ih =>
    have hcons : (hours (i :: rest)).total = i.interval.duration + (hours rest).total := rfl
    have h0 : 0 ≤ i.interval.duration := Int.le_max_left _ _
    have hrest := total_nonneg (hours rest)
    have hsum : total (i :: rest) = i.duration + total rest := rfl
    rw [hcons] at hl ⊢
    rw [hsum, Int64.toInt_add, toInt_duration, ih (by omega)]
    apply Int.bmod_eq_of_le <;> simp only [week] at * <;> omega

theorem any_eq_isActive (l : List Stored) : (l.any fun i => i.start < i.stop) = (hours l).isActive := by
  rw [Bool.eq_iff_iff]
  simp [Hours.isActive, hours, start_lt_stop_iff]

theorem week_le_total_iff (hc : (hours l).Canonical) : weekWord.toInt64 ≤ total l ↔ week ≤ (hours l).total := by
  rw [Int64.le_iff_toInt_le, Int32.toInt_toInt64, toInt_total hc.total_le, toInt_weekWord]

/-- Hours that are never open or always open are told not to close, whatever the moment. -/
theorem nextClose_of_settled (hc : (hours l).Canonical)
    (hsettled : (!(hours l).isActive || week ≤ (hours l).total) = true) : nextClose l t = .ok none := by
  rw [nextClose, any_eq_isActive]
  simp only [week_le_total_iff hc]
  exact if_pos hsettled

/-- Of other hours it is told when they close as soon as the Monday before the question is known. -/
theorem nextClose_of_not_settled (hc : (hours l).Canonical)
    (hsettled : ¬ (!(hours l).isActive || week ≤ (hours l).total) = true) :
    nextClose l t = (word (t.toInt - t.toInt % week)).bind fun _ => told ((hours l).nextClose? t.toInt) := by
  obtain ⟨copies, hcopies, himages⟩ := exists_mapM_images (near_of_canonical hc)
  rw [nextClose, any_eq_isActive]
  simp only [week_le_total_iff hc]
  refine (if_neg hsettled).trans ?_
  rw [toInt_wordInWeek, hcopies]
  have hends : ((copies.flatten.map (·.stop)).filter fun e => wordInWeek t < e && !isOpenAt l e).map (·.toInt) =
      ((hours l).images.map (·.stop)).filter fun e => t.toInt % week < e && !(hours l).isOpenAt e := by
    rw [← himages]
    simp only [hours, List.map_map, List.filter_map, Function.comp_def, Int32.lt_iff_toInt_lt, interval,
      isOpenAt_eq, toInt_wordInWeek]
  have hexact : (hours l).nextClose? t.toInt = (((hours l).images.map (·.stop)).filter fun e =>
      t.toInt % week < e && !(hours l).isOpenAt e).min?.map (t.toInt - t.toInt % week + ·) := if_neg hsettled
  rw [hexact, ← hends]
  cases hw : word (t.toInt - t.toInt % week) with
  | error o => simp only [bind, Except.bind]
  | ok monday => simp only [bind, Except.bind, word_eq_ok_iff.1 hw]

theorem nextClose_eq_none_iff (hc : (hours l).Canonical) :
    nextClose l t = .ok none ↔ (hours l).nextClose? t.toInt = none := by
  by_cases hsettled : (!(hours l).isActive || week ≤ (hours l).total) = true
  · exact iff_of_true (nextClose_of_settled hc hsettled) (if_pos hsettled)
  · rw [nextClose_of_not_settled hc hsettled]
    have hcloses : (hours l).nextClose? t.toInt ≠ none := by
      rw [← hc.normalize_eq, ne_eq, Hours.nextClose?_normalize_eq_none_iff, ← hc.week_le_total_iff]
      rintro (hno | hall)
      · have hactive : (hours l).isActive = false := by simpa [Hours.isActive] using hno
        simp [hactive] at hsettled
      · simp [hall] at hsettled
    refine iff_of_false (fun hok => ?_) hcloses
    cases hw : word (t.toInt - t.toInt % week) with
    | error o => rw [hw] at hok; cases hok
    | ok monday =>
      rw [hw] at hok
      exact hcloses (told_eq_none_iff.1 hok)

theorem nextClose_eq (hc : (hours l).Canonical) (hweek : Fits (t.toInt - t.toInt % week)) :
    nextClose l t = told ((hours l).nextClose? t.toInt) := by
  by_cases hsettled : (!(hours l).isActive || week ≤ (hours l).total) = true
  · have hnone : (hours l).nextClose? t.toInt = none := if_pos hsettled
    rw [nextClose_of_settled hc hsettled, hnone]
    rfl
  · obtain ⟨monday, hmonday, -⟩ := exists_word hweek
    rw [nextClose_of_not_settled hc hsettled, hmonday]
    rfl

theorem nextClose_of_not_fits (hc : (hours l).Canonical)
    (hsettled : ¬ (!(hours l).isActive || week ≤ (hours l).total) = true)
    (hweek : ¬ Fits (t.toInt - t.toInt % week)) : nextClose l t = .error ⟨t.toInt - t.toInt % week⟩ := by
  rw [nextClose_of_not_settled hc hsettled, word_of_not_fits hweek]
  rfl

end Canonical

/-! ### Answers for the normal form -/

section Normalize

variable {h : Hours} {t u : Int32}

theorem hours_ofHours_normalize (h : Hours) : hours (ofHours h.normalize) = h.normalize :=
  hours_ofHours (Hours.canonical_normalize h).fits

theorem canonical_ofHours_normalize (h : Hours) : (hours (ofHours h.normalize)).Canonical := by
  rw [hours_ofHours_normalize]
  exact Hours.canonical_normalize h

theorem isOpenAt_normalize : isOpenAt (ofHours h.normalize) t = true ↔ h.Covers t.toInt := by
  rw [isOpenAt_eq, hours_ofHours_normalize, Hours.isOpenAt_normalize]

theorem nextOpen_normalize (hweek : Fits (t.toInt - t.toInt % week)) :
    nextOpen (ofHours h.normalize) t = told (h.normalize.nextOpen? t.toInt) := by
  rw [nextOpen_eq (canonical_ofHours_normalize h) hweek, hours_ofHours_normalize]

theorem nextClose_normalize (hweek : Fits (t.toInt - t.toInt % week)) :
    nextClose (ofHours h.normalize) t = told (h.normalize.nextClose? t.toInt) := by
  rw [nextClose_eq (canonical_ofHours_normalize h) hweek, hours_ofHours_normalize]

/-- It is told at every moment whether the hours cover it. Where the Monday before it fits a word, the next opening
is the first moment from `t` on that they cover, if that fits. -/
theorem opening_isLeast (h : Hours) (t : Int32) :
    (isOpenAt (ofHours h.normalize) t = true ↔ h.Covers t.toInt) ∧
    (Fits (t.toInt - t.toInt % week) →
      (nextOpen (ofHours h.normalize) t = .ok none ↔ ∀ i ∈ h, ¬ i.Proper) ∧
      (∀ u : Int32, nextOpen (ofHours h.normalize) t = .ok (some u) ↔
        IsLeast {v | t.toInt ≤ v ∧ h.Covers v} u.toInt) ∧
      (nextOpen (ofHours h.normalize) t = .ok (some t) ↔ h.Covers t.toInt)) := by
  refine ⟨isOpenAt_normalize, fun hweek => ⟨?_, fun u => ?_, ?_⟩⟩
  · rw [nextOpen_normalize hweek, told_eq_none_iff, Hours.nextOpen?_normalize_eq_none_iff]
  · rw [nextOpen_normalize hweek, told_eq_some_iff, Hours.nextOpen?_normalize_eq_some_iff]
  · rw [nextOpen_normalize hweek, told_eq_some_iff, Hours.nextOpen?_normalize_eq_self_iff]

/-- On the last Monday of which the midnight fits a word, a day from nine to five is still told. -/
theorem opening_isLeast_monday :
    nextOpen (ofHours (Hours.normalize [⟨32400, 61200⟩])) 2147040000 = .ok (some 2147072400) ∧
      IsLeast {v | 2147040000 ≤ v ∧ Hours.Covers [⟨32400, 61200⟩] v} 2147072400 := by
  obtain ⟨-, hopens, -⟩ := (opening_isLeast [⟨32400, 61200⟩] 2147040000).2 (by decide)
  have htold : nextOpen (ofHours (Hours.normalize [⟨32400, 61200⟩])) 2147040000 = .ok (some 2147072400) := rfl
  exact ⟨htold, (hopens 2147072400).1 htold⟩

/-- At the last second of all, hours that open on Mondays at midnight open a day and a half later, which no word
tells. -/
theorem opening_beyond_words :
    IsLeast {v | (2147483647 : Int32).toInt ≤ v ∧ Hours.Covers [⟨0, 3600⟩] v} 2147644800 ∧
      nextOpen (ofHours (Hours.normalize [⟨0, 3600⟩])) 2147483647 = .error ⟨2147644800⟩ :=
  ⟨Hours.nextOpen?_normalize_eq_some_iff.1 (by decide), rfl⟩

/-- Hours that are never open or always open are told not to close, whatever the moment. Where the Monday before it
fits a word, others next close at the first moment after `t` at which coverage ends, if that fits. It is never the
seam where the normal form cuts an opening. -/
theorem closing_isLeast (h : Hours) (t : Int32) :
    (nextClose (ofHours h.normalize) t = .ok none ↔ (∀ i ∈ h, ¬ i.Proper) ∨ ∀ v, h.Covers v) ∧
    (Fits (t.toInt - t.toInt % week) →
      (∀ u : Int32, nextClose (ofHours h.normalize) t = .ok (some u) ↔
        IsLeast {v | t.toInt < v ∧ h.Covers (v - 1) ∧ ¬ h.Covers v} u.toInt) ∧
      (h.normalize.MeetsAtSeam →
        ∀ u : Int32, nextClose (ofHours h.normalize) t = .ok (some u) → ¬ week ∣ u.toInt)) := by
  have hleast : ∀ {u : Int32}, Fits (t.toInt - t.toInt % week) →
      (nextClose (ofHours h.normalize) t = .ok (some u) ↔ IsLeast {v | t.toInt < v ∧ h.ClosesAt v} u.toInt) := by
    intro u hweek
    rw [nextClose_normalize hweek, told_eq_some_iff, Hours.nextClose?_normalize_eq_some_iff]
  refine ⟨?_, fun hweek => ⟨fun u => hleast hweek, fun hm u hu hseam => ?_⟩⟩
  · rw [nextClose_eq_none_iff (canonical_ofHours_normalize h), hours_ofHours_normalize,
      Hours.nextClose?_normalize_eq_none_iff]
  · exact Hours.not_closesAt_seam hm hseam ((hleast hweek).1 hu).1.2

/-- A night from Sunday 22:00 to Monday 08:00 is kept as two intervals. In the first week that can be asked about, on
Sunday at 23:00, its end is told, and not the midnight between them. -/
theorem closing_isLeast_night :
    Hours.MeetsAtSeam (Hours.normalize [⟨597600, 633600⟩]) ∧
    nextClose (ofHours (Hours.normalize [⟨597600, 633600⟩])) (-2146438800) = .ok (some (-2146406400)) ∧
    IsLeast {v | -2146438800 < v ∧ Hours.Covers [⟨597600, 633600⟩] (v - 1) ∧ ¬ Hours.Covers [⟨597600, 633600⟩] v}
      (-2146406400) ∧
    ¬ week ∣ -2146406400 := by
  have hm : Hours.MeetsAtSeam (Hours.normalize [⟨597600, 633600⟩]) := by decide
  have htold : nextClose (ofHours (Hours.normalize [⟨597600, 633600⟩])) (-2146438800) =
      .ok (some (-2146406400)) := rfl
  obtain ⟨hcloses, hseam⟩ := (closing_isLeast [⟨597600, 633600⟩] (-2146438800)).2 (by decide)
  exact ⟨hm, htold, (hcloses (-2146406400)).1 htold, hseam hm _ htold⟩

/-- An hour after the opening above, coverage ends at a moment that no word tells. -/
theorem closing_beyond_words :
    IsLeast {v | (2147483647 : Int32).toInt < v ∧ Hours.Covers [⟨0, 3600⟩] (v - 1) ∧ ¬ Hours.Covers [⟨0, 3600⟩] v}
      2147648400 ∧
      nextClose (ofHours (Hours.normalize [⟨0, 3600⟩])) 2147483647 = .error ⟨2147648400⟩ :=
  ⟨Hours.nextClose?_normalize_eq_some_iff.1 (by decide), rfl⟩

end Normalize

end Stored

end OpeningHours
