import OpeningHours.Proofs.Hours.Canonical
import OpeningHours.Proofs.Hours.Cycle
import OpeningHours.Stored

/-!
The reduction onto the week, computed in words. Stored intervals have ends of 32 bits. Their durations are taken
in 64 bits and cut down to 32, sums and differences are taken in 32 bits and stop the computation where they do
not fit. They always do: only what is shorter than a week is moved, so it ends before two weeks are over. Main
statement: on stored hours the computation in words never stops, and it gives the pieces that `reduce?` gives.
-/

namespace OpeningHours

theorem fits_toInt (w : Int32) : Fits w.toInt := by
  have hw := And.intro w.le_toInt w.toInt_lt
  simp only [Fits]
  omega

/-- What is computed as a word is the number itself. -/
theorem word_eq_ok_iff {k : Int} {w : Int32} : word k = .ok w ↔ w.toInt = k := by
  constructor
  · intro hok
    unfold word at hok
    split_ifs at hok with hk
    obtain rfl := Except.ok.inj hok
    exact Int32.toInt_ofInt_of_le hk.1 (Int.lt_add_one_of_le hk.2)
  · rintro rfl
    rw [word, if_pos (fits_toInt w), Int32.ofInt_toInt]

theorem word_of_fits {k : Int} (hk : Fits k) : word k = .ok (.ofInt k) := if_pos hk

theorem word_of_not_fits {k : Int} (hk : ¬ Fits k) : word k = .error ⟨k⟩ := if_neg hk

theorem fits_of_word {k : Int} {w : Int32} (hok : word k = .ok w) : Fits k := by
  rw [← word_eq_ok_iff.1 hok]
  exact fits_toInt w

theorem Fits.toInt_ofInt {k : Int} (hk : Fits k) : (Int32.ofInt k).toInt = k := word_eq_ok_iff.1 (word_of_fits hk)

theorem exists_word {k : Int} (hk : Fits k) : ∃ w, word k = .ok w ∧ w.toInt = k :=
  ⟨_, word_of_fits hk, hk.toInt_ofInt⟩

/-- A result in words is computed from results in words. -/
theorem bind_eq_ok {α β : Type} {x : Except Overflow α} {f : α → Except Overflow β} {y : β}
    (hok : (x >>= f) = .ok y) : ∃ a, x = .ok a ∧ f a = .ok y := by
  cases x with
  | error o => cases hok
  | ok a => exact ⟨a, rfl, hok⟩

theorem toInt_weekWord : weekWord.toInt = week := rfl

theorem tmod_week (t : Int) :
    t.tmod week = t % week ∨ t.tmod week = t % week - week ∧ t.tmod week < 0 := by
  have hrem := Int.tmod_eq_emod (a := t) (b := week)
  have hlt : t % week < week := Int.emod_lt_of_pos t (by decide)
  split_ifs at hrem
  · exact .inl (by omega)
  · exact .inr (by simp only [week] at *; omega)

theorem toInt_wordInWeek (t : Int32) : (wordInWeek t).toInt = t.toInt % week := by
  have hmod : (t % weekWord).toInt = t.toInt.tmod week := by
    rw [Int32.toInt_mod, toInt_weekWord]
  have h0 : 0 ≤ t.toInt % week := Int.emod_nonneg _ (by decide)
  have hw : t.toInt % week < week := Int.emod_lt_of_pos _ (by decide)
  simp only [wordInWeek, Int32.lt_iff_toInt_lt, Int32.toInt_zero, hmod]
  rcases tmod_week t.toInt with heq | ⟨heq, hneg⟩
  · rw [if_neg (by omega), hmod, heq]
  · rw [if_pos hneg, Int32.toInt_add, hmod, heq, toInt_weekWord, Int.sub_add_cancel]
    apply Int.bmod_eq_of_le <;> simp only [week] at * <;> omega

/-- Canonical hours can be stored. -/
theorem Hours.Canonical.fits {h : Hours} (hc : h.Canonical) : ∀ i ∈ h, Fits i.start ∧ Fits i.stop := by
  intro i hi
  have hb := hc.bounds i hi
  simp only [week, spill, Fits] at *
  omega

namespace Stored

section Exact

variable {i : Stored}

theorem start_lt_stop_iff : i.start < i.stop ↔ i.interval.Proper := Int32.lt_iff_toInt_lt

/-- The difference of any two words of 32 bits fits 64 bits. -/
theorem toInt_duration (i : Stored) : i.duration.toInt = i.interval.duration := by
  have hstart := And.intro i.start.le_toInt i.start.toInt_lt
  have hstop := And.intro i.stop.le_toInt i.stop.toInt_lt
  simp only [duration, Interval.duration, interval, Int32.lt_iff_toInt_lt]
  split_ifs with hlt
  · rw [Int64.toInt_sub, Int32.toInt_toInt64, Int32.toInt_toInt64, Int.bmod_eq_of_le] <;> omega
  · rw [Int64.toInt_zero]
    omega

theorem week_le_duration_iff : weekWord.toInt64 ≤ i.duration ↔ week ≤ i.interval.duration := by
  rw [Int64.le_iff_toInt_le, Int32.toInt_toInt64, toInt_duration, toInt_weekWord]

/-- Only a duration below a week is cut down to 32 bits, and it loses nothing. -/
theorem toInt_toInt32_duration (hw : i.interval.duration < week) :
    i.duration.toInt32.toInt = i.interval.duration := by
  have h0 : 0 ≤ i.interval.duration := Int.le_max_left _ _
  rw [Int64.toInt_toInt32, toInt_duration]
  apply Int.bmod_eq_of_le <;> simp only [week] at * <;> omega

theorem exists_move (hp : i.interval.Proper) (hw : i.interval.duration < week) :
    ∃ j, i.move = .ok j ∧ j.interval = Hours.move i.interval := by
  obtain ⟨h0, -, hproper, h2⟩ := Hours.move_bounds hp hw
  have hsum : (wordInWeek i.start).toInt + i.duration.toInt32.toInt = (Hours.move i.interval).stop := by
    rw [toInt_wordInWeek, toInt_toInt32_duration hw]
    rfl
  have hfits : Fits (Hours.move i.interval).stop := by
    simp only [Fits, week, Interval.Proper] at *
    omega
  obtain ⟨stop, hok, hstop⟩ := exists_word hfits
  refine ⟨⟨wordInWeek i.start, stop⟩, ?_, ?_⟩
  · simp only [move, hsum, hok]
    rfl
  · rw [interval, hstop, toInt_wordInWeek]
    rfl

/-- The pieces, once the interval is moved. -/
theorem pieces_eq {j : Stored} (hmove : i.move = .ok j) : i.pieces =
    if weekWord < j.stop then do
      return [⟨j.start, weekWord⟩, ⟨0, ← word (j.stop.toInt - weekWord.toInt)⟩]
    else
      return [j] := by
  rw [pieces, hmove]
  rfl

theorem exists_pieces (hp : i.interval.Proper) (hw : i.interval.duration < week) :
    ∃ ps, i.pieces = .ok ps ∧ hours ps = Hours.pieces i.interval := by
  obtain ⟨j, hmove, hj⟩ := exists_move hp hw
  have hlt : weekWord < j.stop ↔ week < j.interval.stop := Int32.lt_iff_toInt_lt
  rw [pieces_eq hmove, Hours.pieces, ← hj]
  by_cases hcut : week < j.interval.stop
  · have hend := (Hours.move_bounds hp hw).2.2.2
    have hfits : Fits (j.stop.toInt - weekWord.toInt) := by
      rw [← hj] at hend
      simp only [interval, toInt_weekWord, Fits, week] at *
      omega
    obtain ⟨rest, hok, hrest⟩ := exists_word hfits
    rw [if_pos (hlt.2 hcut), if_pos hcut, hok]
    refine ⟨[⟨j.start, weekWord⟩, ⟨0, rest⟩], rfl, ?_⟩
    simp only [hours, List.map_cons, List.map_nil, interval, hrest, toInt_weekWord, Int32.toInt_zero]
  · rw [if_neg (hlt.not.2 hcut), if_neg hcut]
    exact ⟨[j], rfl, rfl⟩

end Exact

/-- The reduction in words comes to its end and gives the exact pieces. -/
theorem exists_reduce (l : List Stored) :
    ∃ r, reduce l = .ok r ∧ r.map hours = (hours l).reduce? := by
  induction l with
  | nil => exact ⟨some [], rfl, rfl⟩
  | cons i rest ih =>
    obtain ⟨back, hback, hrest⟩ := ih
    have hcons : hours (i :: rest) = i.interval :: hours rest := rfl
    rw [reduce, hcons, Hours.reduce?_cons, ← hrest]
    by_cases hp : i.interval.Proper
    · rw [if_pos (start_lt_stop_iff.2 hp), if_pos hp]
      by_cases hw : week ≤ i.interval.duration
      · -- nothing behind an interval that fills the week is looked at
        rw [if_pos (week_le_duration_iff.2 hw), if_pos hw]
        exact ⟨none, rfl, rfl⟩
      · obtain ⟨front, hfront, hpieces⟩ := exists_pieces hp (Int.not_le.1 hw)
        rw [if_neg (week_le_duration_iff.not.2 hw), if_neg hw, hfront, hback, ← hpieces]
        refine ⟨back.map (front ++ ·), rfl, ?_⟩
        cases back with
        | none => rfl
        | some back => simp [hours]
    · have hshort : ¬ week ≤ i.interval.duration := by
        simp only [Interval.Proper, Interval.duration, week] at *
        omega
      rw [if_neg (start_lt_stop_iff.not.2 hp), if_neg hp, if_neg hshort]
      exact ⟨back, hback, rfl⟩

/-- On stored hours, whatever their ends, every number of the reduction fits its word and the pieces are exact. There
are none just if an interval is a week long, which is decided on the true durations. Otherwise what is moved ends
before two weeks are over, every piece holds seconds of the week only, and the pieces hold those that the stored
intervals hold up to whole weeks. -/
theorem reduction_fits_words (l : List Stored) :
    (∃ r, reduce l = .ok r ∧ r.map hours = (hours l).reduce?) ∧
    (∀ i ∈ l, i.duration.toInt = i.interval.duration) ∧
    ((hours l).reduce? = none ↔ ∃ i ∈ l, week ≤ i.stop.toInt - i.start.toInt) ∧
    ∀ g, (hours l).reduce? = some g →
      (∀ p ∈ g, p.Proper ∧ 0 ≤ p.start ∧ p.stop ≤ week) ∧
      (∀ i ∈ l, i.interval.Proper → ∃ j, i.move = .ok j ∧ j.interval = Hours.move i.interval ∧
        j.stop.toInt < 2 * week) ∧
      ∀ t, 0 ≤ t → t < week →
        (g.Holds t ↔ ∃ i ∈ l, i.interval.Proper ∧ ∃ k : Int, t + k * week ∈ i.interval) := by
  refine ⟨exists_reduce l, fun i _ => i.toInt_duration, ?_, fun g hg => ⟨?_, ?_, ?_⟩⟩
  · rw [Hours.reduce?_eq_none_iff, Hours.hasFullWeek_iff]
    simp only [hours, List.mem_map, exists_exists_and_eq_and]
    refine exists_congr fun i => and_congr_right fun _ => ?_
    simp only [Interval.duration, interval, week]
    omega
  · have hinside := (Hours.reduce?_spec hg).1
    exact fun p hp => ⟨Hours.proper_of_reduce? hg p hp, hinside p hp⟩
  · intro i hi hp
    have hshort := (Hours.reduce?_eq_some_iff.1 hg).1 i.interval (List.mem_map_of_mem hi)
    obtain ⟨j, hmove, hj⟩ := exists_move hp hshort
    refine ⟨j, hmove, hj, ?_⟩
    have hlt := (Hours.move_bounds hp hshort).2.2.2
    rw [← hj] at hlt
    exact hlt
  · intro t h0 hw
    obtain ⟨hinside, hcovers⟩ := Hours.reduce?_spec hg
    have hmod : t % week = t := Int.emod_eq_of_lt h0 hw
    rw [← hmod, ← hinside.covers_iff_holds, hcovers, hmod, Hours.covers_iff]
    simp only [hours, List.mem_map, exists_exists_and_eq_and]
    refine exists_congr fun i => and_congr_right fun _ => ?_
    exact ⟨fun hi => ⟨hi.proper, hi⟩, fun hi => hi.2⟩

/-- From the least second that can be stored, and across the end of a week. -/
example : Hours.reduce? [⟨-2147483648, -2147483000⟩, ⟨2147483647, -2147483648⟩, ⟨604799, 604801⟩] =
    some [⟨161152, 161800⟩, ⟨604799, 604800⟩, ⟨0, 1⟩] := by
  decide

end Stored

end OpeningHours
