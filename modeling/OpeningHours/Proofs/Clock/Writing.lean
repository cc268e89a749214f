import OpeningHours.Proofs.Hours.Words
import OpeningHours.Proofs.Text

/-!
What the text of a moment and of an interval tells. A time told for a day gives its distance from the midnight of
that day to the minute, be it before that day or long after it. The text of a moment gives its place in the week
to the minute. Main statement: intervals between whole minutes have the same text exactly when they are a number
of weeks apart.
-/

namespace OpeningHours

namespace Weekday

theorem ofMoment_eq_ofMoment_iff {t u : Int} : ofMoment t = ofMoment u ↔ t / day % 7 = u / day % 7 := by
  rw [Fin.ext_iff]
  simp only [ofMoment, Fin.ofNat, day]
  omega

theorem length_shortName (d : Weekday) : d.shortName.toList.length = 3 := by
  revert d
  decide

theorem shortName_inj {d e : Weekday} : d.shortName.toList = e.shortName.toList ↔ d = e := by
  revert d e
  decide

end Weekday

namespace Clock

open Text

/-! ### Times -/

/-- Hours and minutes at a number of seconds from midnight. -/
def hourMinute (s : Int) : List Char :=
  twoDigits (s % day / 3600).toNat ++ ':' :: twoDigits (s % 3600 / 60).toNat

/-- The number of days between a time and the day that it is told for. -/
def dayMark (days : Int) : List Char :=
  if days = 0 then [] else (if 0 < days then '+' else '-') :: digits days.natAbs

theorem time_eq (midnight t : Int) :
    time midnight t = hourMinute (t - midnight) ++ dayMark ((t - midnight) / day) := by
  simp only [time, dayMark]
  split_ifs
  · exact (List.append_nil _).symm
  · rfl
  · rfl

section Times

variable {s u m n midnight midnight' t t' : Int}

theorem length_hourMinute (s : Int) : (hourMinute s).length = 5 := by
  have hhour : (s % day / 3600).toNat < 100 := by
    simp only [day]
    omega
  have hminute : (s % 3600 / 60).toNat < 100 := by omega
  rw [hourMinute, List.length_append, List.length_cons, length_twoDigits hhour, length_twoDigits hminute]

theorem hourMinute_inj : hourMinute s = hourMinute u ↔ s % day / 60 = u % day / 60 := by
  have hlen : ∀ s : Int, (twoDigits (s % day / 3600).toNat).length = 2 := fun s => by
    refine length_twoDigits ?_
    simp only [day]
    omega
  rw [hourMinute, hourMinute, List.append_eq_append_iff_of_size_eq_left (by rw [hlen, hlen]), List.cons_inj_right,
    twoDigits_inj, twoDigits_inj]
  simp only [day]
  omega

theorem dayMark_inj : dayMark m = dayMark n ↔ m = n := by
  constructor
  · intro h
    unfold dayMark at h
    split_ifs at h with hm hn hpos hpos' hpos' <;>
      simp only [List.cons.injEq, digits_inj, Char.reduceEq, false_and, true_and] at h <;> omega
  · rintro rfl
    rfl

/-- A time tells the minutes from midnight, those before it as well. -/
theorem time_eq_time_iff : time midnight t = time midnight' t' ↔ (t - midnight) / 60 = (t' - midnight') / 60 := by
  rw [time_eq, time_eq, List.append_eq_append_iff_of_size_eq_left (by rw [length_hourMinute, length_hourMinute]),
    hourMinute_inj, dayMark_inj]
  simp only [day]
  omega

/-- Only the midnight that ends a day is written with the hour 24. -/
theorem time_ne_dayEnd : time midnight t ≠ ['2', '4', ':', '0', '0'] := by
  intro h
  have hdayEnd : ['2', '4', ':', '0', '0'] = (twoDigits 24 ++ ':' :: twoDigits 0) ++ [] := rfl
  rw [time_eq, hdayEnd] at h
  have hclock := (List.append_inj h (length_hourMinute _)).1
  have hhour : ((t - midnight) % day / 3600).toNat < 24 := by
    simp only [day]
    omega
  have htwo : (twoDigits ((t - midnight) % day / 3600).toNat).length = 2 := length_twoDigits (by omega)
  have := twoDigits_inj.1 (List.append_inj hclock htwo).1
  omega

end Times

/-! ### Moments -/

section Moments

variable {t u : Int}

theorem length_momentChars (t : Int) : (momentChars t).length = 9 := by
  have hday : (t - midnightOf t) / day = 0 := by
    simp only [midnightOf, day]
    omega
  rw [momentChars, time_eq, hday, List.length_append, Weekday.length_shortName, List.length_cons,
    List.length_append, length_hourMinute]
  rfl

theorem momentChars_inj : momentChars t = momentChars u ↔ t / 60 % (week / 60) = u / 60 % (week / 60) := by
  rw [momentChars, momentChars, List.append_eq_append_iff_of_size_eq_left (by simp only [Weekday.length_shortName]),
    List.cons_inj_right, Weekday.shortName_inj, Weekday.ofMoment_eq_ofMoment_iff, time_eq_time_iff]
  simp only [midnightOf, week, day]
  omega

/-- The text of a moment tells the minute of the week. -/
theorem momentText_inj : momentText t = momentText u ↔ t / 60 % (week / 60) = u / 60 % (week / 60) := by
  rw [momentText, momentText, String.ofList_inj, momentChars_inj]

end Moments

end Clock

namespace Interval

open Clock

/-- Both ends are whole minutes. -/
def WholeMinutes (i : Interval) : Prop := 60 ∣ i.start ∧ 60 ∣ i.stop

section Text

variable {i j : Interval}

theorem stopChars_inj (hi : i.WholeMinutes) (hj : j.WholeMinutes) :
    i.stopChars = j.stopChars ↔ i.stop - midnightOf i.start = j.stop - midnightOf j.start := by
  simp only [stopChars]
  split_ifs with hiEnd hjEnd hjEnd
  · exact iff_of_true rfl (by omega)
  · exact iff_of_false time_ne_dayEnd.symm (by omega)
  · exact iff_of_false time_ne_dayEnd (by omega)
  · obtain ⟨-, hi⟩ := hi
    obtain ⟨-, hj⟩ := hj
    rw [time_eq_time_iff]
    simp only [midnightOf, day]
    omega

theorem chars_inj (hi : i.Proper) (hj : j.Proper) :
    i.chars = j.chars ↔ momentChars i.start = momentChars j.start ∧ i.stopChars = j.stopChars := by
  rw [chars, chars, if_pos hi, if_pos hj,
    List.append_eq_append_iff_of_size_eq_left (by rw [length_momentChars, length_momentChars]), List.cons_inj_right]

theorem text_eq_hyphen_iff : i.text = "-" ↔ ¬ i.Proper := by
  have hchars : i.text = "-" ↔ i.chars = ['-'] := by
    rw [text, ← String.toList_inj, String.toList_ofList]
    rfl
  rw [hchars, chars]
  split_ifs with hi
  · refine iff_of_false (fun h => ?_) (not_not.2 hi)
    have hlen := congrArg List.length h
    rw [List.length_append, length_momentChars, List.length_cons, List.length_singleton] at hlen
    omega
  · exact iff_of_true rfl hi

/-- Intervals are a number of weeks apart when their starts are and they last equally long. -/
theorem exists_eq_shift_iff :
    (∃ k : Int, j = i.shift (k * week)) ↔ week ∣ j.start - i.start ∧ j.stop - j.start = i.stop - i.start := by
  constructor
  · rintro ⟨k, rfl⟩
    have hstart : i.start + k * week - i.start = week * k := by
      rw [Int.mul_comm]
      omega
    refine ⟨⟨k, hstart⟩, ?_⟩
    simp only [shift]
    omega
  · rintro ⟨⟨k, hk⟩, hlen⟩
    rw [Int.mul_comm] at hk
    have hstart : j.start = i.start + k * week := by omega
    have hstop : j.stop = i.stop + k * week := by omega
    exact ⟨k, congrArg₂ Interval.mk hstart hstop⟩

/-- The texts of intervals between whole minutes are equal exactly when the intervals are a number of weeks apart. -/
theorem text_inj (hi : i.Proper) (hj : j.Proper) (hmi : i.WholeMinutes) (hmj : j.WholeMinutes) :
    i.text = j.text ↔ ∃ k : Int, j = i.shift (k * week) := by
  rw [text, text, String.ofList_inj, chars_inj hi hj, momentChars_inj, stopChars_inj hmi hmj, exists_eq_shift_iff]
  -- a start in whole minutes is told by the minute of the week, and the end by its distance from a midnight
  obtain ⟨hstart, -⟩ := hmi
  obtain ⟨hstart', -⟩ := hmj
  simp only [midnightOf, week, day]
  omega

example : text ⟨0, 86400⟩ = "Mon 00:00-24:00" ∧ text ⟨0, 86460⟩ = "Mon 00:00-00:01+1" := by decide

end Text

end Interval

/-! ### Texts in words -/

namespace Stored

/-- The numbers that the text of an interval is computed from fit words: the midnight before its start, the next one,
and the time from the first of them to its end. -/
structure TextFits (i : Stored) : Prop where
  midnight : Fits (Clock.midnightOf i.start.toInt)
  next : Fits (Clock.midnightOf i.start.toInt + day)
  time : Fits (i.stop.toInt - Clock.midnightOf i.start.toInt)

section Words

variable {i : Stored} {t : Int32}

theorem time_eq {midnight : Int32} (hf : Fits (t.toInt - midnight.toInt)) :
    time midnight t = .ok (Clock.time midnight.toInt t.toInt) := by
  have hzero : Clock.time 0 (t.toInt - midnight.toInt) = Clock.time midnight.toInt t.toInt := by
    simp only [Clock.time, Int.sub_zero]
  rw [time, word_of_fits hf]
  show Except.ok _ = _
  rw [hf.toInt_ofInt, hzero]

theorem exists_midnightOf (hm : Fits (Clock.midnightOf t.toInt)) :
    ∃ m, midnightOf t = .ok m ∧ m.toInt = Clock.midnightOf t.toInt := exists_word hm

/-- If the midnight before a moment fits, the moment is told. -/
theorem momentChars_eq (hm : Fits (Clock.midnightOf t.toInt)) :
    momentChars t = .ok (Clock.momentChars t.toInt) := by
  obtain ⟨m, hok, heq⟩ := exists_midnightOf hm
  have hf : Fits (t.toInt - m.toInt) := by
    rw [heq]
    simp only [Fits, Clock.midnightOf, day]
    omega
  rw [momentChars, hok]
  show (time m t >>= _) = _
  rw [time_eq hf, heq]
  rfl

theorem momentText_eq (hm : Fits (Clock.midnightOf t.toInt)) : momentText t = .ok (Clock.momentText t.toInt) := by
  rw [momentText, momentChars_eq hm]
  rfl

theorem stopChars_eq (hi : i.TextFits) : i.stopChars = .ok i.interval.stopChars := by
  obtain ⟨m, hok, heq⟩ := exists_midnightOf hi.midnight
  obtain ⟨next, hnext, hnexteq⟩ := exists_word hi.next
  have hend : i.stop = next ↔ i.interval.stop = Clock.midnightOf i.interval.start + day := by
    rw [← Int32.toInt_inj, hnexteq]
    rfl
  have htime : time m i.stop = .ok (Clock.time (Clock.midnightOf i.interval.start) i.interval.stop) := by
    rw [time_eq (by rw [heq]; exact hi.time), heq]
    rfl
  rw [stopChars, hok]
  show (word (m.toInt + day) >>= _) = _
  rw [heq, hnext, Interval.stopChars]
  show (if i.stop = next then _ else _) = _
  rw [htime]
  simp only [hend]
  split_ifs <;> rfl

theorem text_of_not_proper (hp : ¬ i.interval.Proper) : i.text = .ok "-" := by
  rw [text, if_neg (start_lt_stop_iff.not.2 hp)]
  rfl

theorem text_eq (hi : i.TextFits) : i.text = .ok i.interval.text := by
  by_cases hp : i.interval.Proper
  · rw [text, if_pos (start_lt_stop_iff.2 hp), stopChars_eq hi, momentChars_eq hi.midnight, Interval.text,
      Interval.chars, if_pos hp]
    rfl
  · rw [text_of_not_proper hp, Interval.text_eq_hyphen_iff.2 hp]

/-- Whatever is told of a moment names its day. -/
theorem ne_nil_of_momentChars {s : List Char} (hs : momentChars t = .ok s) : s ≠ [] := by
  unfold momentChars at hs
  obtain ⟨m, -, hs⟩ := bind_eq_ok hs
  obtain ⟨clock, -, hs⟩ := bind_eq_ok hs
  obtain rfl := Except.ok.inj hs
  exact List.append_ne_nil_of_right_ne_nil _ (List.cons_ne_nil _ _)

/-- Only the empty interval is written as a dash. -/
theorem text_eq_hyphen_iff : i.text = .ok "-" ↔ ¬ i.interval.Proper := by
  refine ⟨fun hok hp => ?_, text_of_not_proper⟩
  rw [text, if_pos (start_lt_stop_iff.2 hp)] at hok
  obtain ⟨stop, -, hok⟩ := bind_eq_ok hok
  obtain ⟨m, hm, hok⟩ := bind_eq_ok hok
  have hchars : m ++ '-' :: stop = ['-'] := by
    rw [← String.toList_ofList (l := m ++ '-' :: stop), Except.ok.inj hok]
    rfl
  have hlen := congrArg List.length hchars
  rw [List.length_append, List.length_cons, List.length_singleton] at hlen
  exact ne_nil_of_momentChars hm (List.eq_nil_of_length_eq_zero (by omega))

theorem exists_momentText_iff : (∃ s, momentText t = .ok s) ↔ Fits (Clock.midnightOf t.toInt) := by
  refine ⟨fun ⟨s, hok⟩ => ?_, fun hm => ⟨_, momentText_eq hm⟩⟩
  obtain ⟨chars, hchars, -⟩ := bind_eq_ok hok
  obtain ⟨m, hm, -⟩ := bind_eq_ok hchars
  exact fits_of_word hm

/-- An interval that has a text is one for which these numbers fit. -/
theorem exists_text_iff (hp : i.interval.Proper) : (∃ s, i.text = .ok s) ↔ i.TextFits := by
  refine ⟨fun ⟨s, hok⟩ => ?_, fun hi => ⟨_, text_eq hi⟩⟩
  rw [text, if_pos (start_lt_stop_iff.2 hp)] at hok
  obtain ⟨stop, hstop, -⟩ := bind_eq_ok hok
  obtain ⟨m, hm, hstop⟩ := bind_eq_ok hstop
  obtain ⟨next, hnext, hstop⟩ := bind_eq_ok hstop
  have hmidnight : m.toInt = Clock.midnightOf i.start.toInt := word_eq_ok_iff.1 hm
  refine ⟨fits_of_word hm, ?_, ?_⟩
  · rw [← hmidnight]
    exact fits_of_word hnext
  · rw [← hmidnight]
    split_ifs at hstop with hend
    · -- no time is computed for the midnight that ends the day
      rw [hend, word_eq_ok_iff.1 hnext]
      simp only [Fits, day]
      omega
    · obtain ⟨time, htime, -⟩ := bind_eq_ok hstop
      exact fits_of_word htime

/-- Where the numbers that a text is computed from fit words, there is a text. The texts of such intervals between
whole minutes are equal exactly when the intervals are a number of weeks apart, and those of such moments exactly when
the moments lie in the same minute of the week. Only the empty interval is written as a dash. -/
theorem text_identifies :
    (∀ i : Stored, i.TextFits → ∃ s, i.text = .ok s) ∧
    (∀ i j : Stored, i.interval.Proper → j.interval.Proper → i.interval.WholeMinutes → j.interval.WholeMinutes →
      i.TextFits → j.TextFits → (i.text = j.text ↔ ∃ k : Int, j.interval = i.interval.shift (k * week))) ∧
    (∀ i : Stored, i.text = .ok "-" ↔ ¬ i.interval.Proper) ∧
    ∀ t u : Int32, Fits (Clock.midnightOf t.toInt) → Fits (Clock.midnightOf u.toInt) →
      (∃ s, momentText t = .ok s) ∧
      (momentText t = momentText u ↔ t.toInt / 60 % (week / 60) = u.toInt / 60 % (week / 60)) := by
  refine ⟨fun i hi => ⟨_, text_eq hi⟩, fun i j hi hj hmi hmj hfi hfj => ?_, fun i => text_eq_hyphen_iff,
    fun t u ht hu => ⟨⟨_, momentText_eq ht⟩, ?_⟩⟩
  · rw [text_eq hfi, text_eq hfj, Except.ok.injEq, Interval.text_inj hi hj hmi hmj]
  · rw [momentText_eq ht, momentText_eq hu, Except.ok.injEq, Clock.momentText_inj]

/-- Three hours up to a few seconds before the last word, and the same 7100 weeks earlier; a whole day against a day
and a minute; and the first moment of all that is told, against the same weeks later. -/
theorem text_identifies_edge :
    text ⟨2147471940, 2147483640⟩ = text ⟨-2146608060, -2146596360⟩ ∧ text ⟨0, 86400⟩ ≠ text ⟨0, 86460⟩ ∧
      momentText (-2147472000) = momentText 172800 ∧ momentText (-2147472000) ≠ momentText 172860 := by
  obtain ⟨-, hweeks, -, hminutes⟩ := text_identifies
  have hearlier : text ⟨2147471940, 2147483640⟩ = text ⟨-2146608060, -2146596360⟩ :=
    (hweeks _ _ (by decide) (by decide) ⟨by decide, by decide⟩ ⟨by decide, by decide⟩ ⟨by decide, by decide, by decide⟩
      ⟨by decide, by decide, by decide⟩).2 ⟨-7100, rfl⟩
  refine ⟨hearlier, fun heq => ?_, ?_, ?_⟩
  · obtain ⟨k, hk⟩ := (hweeks _ _ (by decide) (by decide) ⟨by decide, by decide⟩ ⟨by decide, by decide⟩
      ⟨by decide, by decide, by decide⟩ ⟨by decide, by decide, by decide⟩).1 heq
    have hstart : 0 = 0 + k * week := congrArg Interval.start hk
    have hstop : 86460 = 86400 + k * week := congrArg Interval.stop hk
    omega
  · exact (hminutes _ _ (by decide) (by decide)).2.2 (by decide)
  · exact fun heq => absurd ((hminutes _ _ (by decide) (by decide)).2.1 heq) (by decide)

/-- The end of this interval between whole minutes is told by a time that fits no word. -/
theorem text_beyond_words :
    (Stored.interval ⟨-1020000000, 1200000000⟩).Proper ∧ (Stored.interval ⟨-1020000000, 1200000000⟩).WholeMinutes ∧
      text ⟨-1020000000, 1200000000⟩ = .error ⟨2220038400⟩ :=
  ⟨by decide, ⟨by decide, by decide⟩, rfl⟩

end Words

end Stored

end OpeningHours
