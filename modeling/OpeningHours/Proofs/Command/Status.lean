import OpeningHours.Proofs.Clock.Writing
import OpeningHours.Proofs.Command.Arguments
import OpeningHours.Proofs.Hours.Moments
import OpeningHours.Proofs.Hours.View
import OpeningHours.Schedule

/-!
The status of stored hours. It tells whether the stored intervals, as they are, cover a moment of the week, and
the next moment at which that changes. There are four answers: always open, open until some moment, closed
until some moment, and never open. What is told of a week and of a day is the same in words.
-/

namespace OpeningHours.Command

open Json

/-- A later moment as it is told: from the end of the week on it is in the next one. -/
theorem moment_eq (u : Int) : moment u = Clock.momentText u ++ if week ≤ u then " (next week)" else "" := by
  unfold moment
  split_ifs
  · rfl
  · exact String.append_empty.symm

theorem closes_ne_around (u : Int) : "closes " ++ moment u ≠ "open around the clock" := by
  intro heq
  have hhead := congrArg (·.toList.head?) heq
  rw [String.toList_append] at hhead
  cases hhead

/-! ### The four answers -/

section Answers

variable {h : Hours} {t u : Int}

theorem statusLines_of_forall (hall : ∀ v, h.Covers v) :
    statusLines h.normalize t = ["open", "open around the clock"] := by
  rw [statusLines, if_pos (Hours.isOpenAt_normalize.2 (hall t)), Hours.nextClose?_normalize_of_forall hall]

theorem statusLines_of_closes (ht : h.Covers t) (hu : IsLeast {v | t < v ∧ h.ClosesAt v} u) :
    statusLines h.normalize t = ["open", "closes " ++ moment u] := by
  rw [statusLines, if_pos (Hours.isOpenAt_normalize.2 ht), Hours.nextClose?_normalize hu]

theorem statusLines_of_opens (ht : ¬ h.Covers t) (hu : IsLeast {v | t < v ∧ h.Covers v} u) :
    statusLines h.normalize t = ["closed", "opens " ++ moment u] := by
  rw [statusLines, if_neg (mt Hours.isOpenAt_normalize.1 ht), Hours.nextOpen?_normalize ht hu]

theorem statusLines_of_not_covers (hno : ∀ v, ¬ h.Covers v) : statusLines h.normalize t = ["closed"] := by
  rw [statusLines, if_neg (mt Hours.isOpenAt_normalize.1 (hno t)), Hours.nextOpen?_normalize_of_not_covers hno]

end Answers

/-! ### What is told -/

/-- What a status says of hours at second `t`: its first line, and what follows it. -/
structure Tells (h : Hours) (t : Int) (first : String) (more : List String) : Prop where
  first_eq : first = if h.Covers t then "open" else "closed"
  always_iff : h.Covers t → (more = ["open around the clock"] ↔ ∀ v, h.Covers v)
  closes : h.Covers t → (∃ v, ¬ h.Covers v) → ∃ u, IsLeast {v | t < v ∧ h.Covers (v - 1) ∧ ¬ h.Covers v} u ∧
    more = ["closes " ++ (Clock.momentText u ++ if week ≤ u then " (next week)" else "")]
  never_iff : ¬ h.Covers t → (more = [] ↔ ∀ i ∈ h, ¬ i.Proper)
  opens : ¬ h.Covers t → (∃ i ∈ h, i.Proper) → ∃ u, IsLeast {v | t < v ∧ h.Covers v} u ∧
    more = ["opens " ++ (Clock.momentText u ++ if week ≤ u then " (next week)" else "")]

section Tells

variable {h : Hours} {t : Int}

/-- Always open, or open until some moment. -/
theorem tells_of_covers (ht : h.Covers t) :
    ∃ first more, statusLines h.normalize t = first :: more ∧ Tells h t first more := by
  obtain ⟨line, hlines, halways, hcloses⟩ : ∃ line, statusLines h.normalize t = ["open", line] ∧
      (line = "open around the clock" ↔ ∀ v, h.Covers v) ∧
      ((∃ v, ¬ h.Covers v) → ∃ u, IsLeast {v | t < v ∧ h.ClosesAt v} u ∧ line = "closes " ++ moment u) := by
    by_cases hall : ∀ v, h.Covers v
    · exact ⟨_, statusLines_of_forall hall, iff_of_true rfl hall, fun ⟨v, hv⟩ => absurd (hall v) hv⟩
    · obtain ⟨u, hu, -⟩ := Hours.exists_isLeast_closesAt ht (not_forall.1 hall)
      exact ⟨_, statusLines_of_closes ht hu, iff_of_false (closes_ne_around u) hall, fun _ => ⟨u, hu, rfl⟩⟩
  refine ⟨_, _, hlines, ?_⟩
  exact
    { first_eq := (if_pos ht).symm
      always_iff := fun _ => List.singleton_inj.trans halways
      closes := fun _ hex => by
        obtain ⟨u, hu, rfl⟩ := hcloses hex
        exact ⟨u, hu, by rw [moment_eq]⟩
      never_iff := fun hno => absurd ht hno
      opens := fun hno => absurd ht hno }

/-- Closed until some moment, or never open. -/
theorem tells_of_not_covers (ht : ¬ h.Covers t) :
    ∃ first more, statusLines h.normalize t = first :: more ∧ Tells h t first more := by
  obtain ⟨more, hlines, hnever, hopens⟩ : ∃ more, statusLines h.normalize t = "closed" :: more ∧
      (more = [] ↔ ∀ i ∈ h, ¬ i.Proper) ∧
      ((∃ i ∈ h, i.Proper) → ∃ u, IsLeast {v | t < v ∧ h.Covers v} u ∧ more = ["opens " ++ moment u]) := by
    by_cases hex : ∃ i ∈ h, i.Proper
    · obtain ⟨u, hu⟩ := (Hours.weekly_covers h).exists_isLeast (Hours.exists_covers_iff.2 hex) t
      exact ⟨_, statusLines_of_opens ht hu, iff_of_false (List.cons_ne_nil _ _) (by simpa using hex),
        fun _ => ⟨u, hu, rfl⟩⟩
    · have hno : ∀ v, ¬ h.Covers v := fun v hv => hex (Hours.exists_covers_iff.1 ⟨v, hv⟩)
      exact ⟨_, statusLines_of_not_covers hno, iff_of_true rfl (by simpa using hex), fun hyes => absurd hyes hex⟩
  refine ⟨_, _, hlines, ?_⟩
  exact
    { first_eq := (if_neg ht).symm
      always_iff := fun hyes => absurd hyes ht
      closes := fun hyes => absurd hyes ht
      never_iff := fun _ => hnever
      opens := fun _ hex => by
        obtain ⟨u, hu, rfl⟩ := hopens hex
        exact ⟨u, hu, by rw [moment_eq]⟩ }

end Tells

theorem tells_statusLines (h : Hours) (t : Int) :
    ∃ first more, statusLines h.normalize t = first :: more ∧ Tells h t first more := by
  by_cases ht : h.Covers t
  · exact tells_of_covers ht
  · exact tells_of_not_covers ht

/-! ### In words

A call asks about a second of the week and is told of a moment of this week or the next, and it shows the openings of
one day. All numbers on the way fit words. -/

section Words

variable {h : Hours} {t u : Int} {i : Interval}

/-- What is found from a moment on is found within a week. -/
theorem found_bounds (hu : h.normalize.nextOpen? t = some u ∨ h.normalize.nextClose? t = some u) :
    t ≤ u ∧ u ≤ t + week := by
  rcases hu with hu | hu
  · obtain ⟨⟨htu, hcovers⟩, hleast⟩ := Hours.nextOpen?_normalize_eq_some_iff.1 hu
    have hle : u ≤ t - 1 + week := (Hours.weekly_covers h).le_add_week
      ⟨⟨Int.sub_one_lt_iff.2 htu, hcovers⟩, fun v hv => hleast ⟨Int.sub_one_lt_iff.1 hv.1, hv.2⟩⟩
    omega
  · have hleast := Hours.nextClose?_normalize_eq_some_iff.1 hu
    have htu : t < u := hleast.1.1
    have hle := (Hours.weekly_closesAt h).le_add_week hleast
    omega

/-- At a second of the week, the answers in words are the exact ones, and so are the texts of the moments found. -/
theorem answers_fit (h0 : 0 ≤ t) (hw : t < week) :
    Stored.isOpenAt (Stored.ofHours h.normalize) (.ofInt t) = h.normalize.isOpenAt t ∧
    Stored.nextOpen (Stored.ofHours h.normalize) (.ofInt t) = .ok ((h.normalize.nextOpen? t).map .ofInt) ∧
    Stored.nextClose (Stored.ofHours h.normalize) (.ofInt t) = .ok ((h.normalize.nextClose? t).map .ofInt) ∧
    ∀ u, h.normalize.nextOpen? t = some u ∨ h.normalize.nextClose? t = some u →
      Stored.momentText (.ofInt u) = .ok (Clock.momentText u) := by
  have ht : (Int32.ofInt t).toInt = t := Fits.toInt_ofInt (by simp only [Fits, week] at *; omega)
  have hmonday : Fits ((Int32.ofInt t).toInt - (Int32.ofInt t).toInt % week) := by
    rw [ht]
    simp only [Fits, week] at *
    omega
  have hfits : ∀ u, h.normalize.nextOpen? t = some u ∨ h.normalize.nextClose? t = some u →
      Fits u ∧ Fits (Clock.midnightOf u) := by
    intro u hu
    have hb := found_bounds hu
    simp only [Fits, Clock.midnightOf, week, day] at *
    omega
  refine ⟨?_, ?_, ?_, fun u hu => ?_⟩
  · rw [Stored.isOpenAt_eq, Stored.hours_ofHours_normalize, ht]
  · rw [Stored.nextOpen_normalize hmonday, ht]
    exact Stored.told_of_fits fun u hu => (hfits u (.inl hu)).1
  · rw [Stored.nextClose_normalize hmonday, ht]
    exact Stored.told_of_fits fun u hu => (hfits u (.inr hu)).1
  · obtain ⟨hu, hmidnight⟩ := hfits u hu
    rw [Stored.momentText_eq (by rw [hu.toInt_ofInt]; exact hmidnight), hu.toInt_ofInt]

theorem text_fits (hstart : 0 ≤ i.start ∧ i.start < week) (hstop : 0 ≤ i.stop ∧ i.stop < 2 * week) :
    Stored.text ⟨.ofInt i.start, .ofInt i.stop⟩ = .ok i.text := by
  have hfits : Fits i.start ∧ Fits i.stop := by
    simp only [Fits, week] at *
    omega
  have hi : Stored.interval ⟨.ofInt i.start, .ofInt i.stop⟩ = i := by
    rw [Stored.interval, hfits.1.toInt_ofInt, hfits.2.toInt_ofInt]
  rw [Stored.text_eq, hi]
  constructor <;> simp only [hfits.1.toInt_ofInt, hfits.2.toInt_ofInt, Fits, Clock.midnightOf, week, day] at * <;> omega

theorem mapM_text_fits (hb : ∀ i ∈ h, (0 ≤ i.start ∧ i.start < week) ∧ 0 ≤ i.stop ∧ i.stop < 2 * week) :
    (Stored.ofHours h).mapM Stored.text = .ok (h.map Interval.text) := by
  induction h with
  | nil => rfl
  | cons i rest ih =>
    rw [List.forall_mem_cons] at hb
    have hcons : Stored.ofHours (i :: rest) = ⟨.ofInt i.start, .ofInt i.stop⟩ :: Stored.ofHours rest := rfl
    rw [hcons, List.mapM_cons, text_fits hb.1.1 hb.1.2, ih hb.2]
    rfl

/-- The openings of a day lie within eight days, so in words they have the same texts. -/
theorem dayLines_fit {s : Schedule} (hc : s.hours.Canonical) (d : Weekday) :
    (Stored.ofHours ((s.hours.view d).shift d.midnight)).mapM Stored.text = .ok (dayLines s d) := by
  refine mapM_text_fits fun i hi => ?_
  obtain ⟨j, hj, rfl⟩ := List.mem_map.1 hi
  have hb := hc.view_bounds d j hj
  have hp : j.start < j.stop := (Hours.separated_view s.hours d).proper j hj
  have hd := d.midnight_bounds
  simp only [Interval.shift, week, day, spill] at *
  omega

end Words

/-! ### From the command line -/

section Call

variable {source dayText timeText text : String} {d : Weekday} {hour minute : ℕ} {inputs rest : Inputs}
  {stored : Schedule}

theorem outcome_status (hp : IsPath source) (hd : Weekday.ofText dayText = .ok d)
    (htime : Clock.wallTime? timeText = some (hour, minute)) (hread : inputs.read source = .ok (text, rest))
    {s : Schedule} (hs : Schedule.parse text = .ok s) :
    outcome ["status", source, dayText, timeText] inputs =
      .printed (statusLines s.hours (d.moment hour minute 0)) := by
  have hrequest : Invocation.ofArguments? ["status", source, dayText, timeText] =
      some (.run (.status source d timeText)) := by
    have hv : ∀ v ∈ [source, dayText, timeText], isOption v = false := by
      simp [hp.2, isOption_weekday hd, isOption_wallTime htime]
    rw [ofArguments?_values (by decide) hv, Request.ofValues?, path?_eq hp, weekday?_eq hd]
    rfl
  refine outcome_eq_printed hrequest hread hs ?_
  rw [Request.answer, htime]

/-- The status of a schedule that can be read tells when the intervals it holds, in whatever form they were
stored, cover the given time and when that next changes. -/
theorem status_tells_coverage (hp : IsPath source) (hd : Weekday.ofText dayText = .ok d)
    (htime : Clock.wallTime? timeText = some (hour, minute)) (hread : inputs.read source = .ok (text, rest))
    (hs : Value.load Schedule.ofJson? text = .ok stored) :
    ∃ first more, outcome ["status", source, dayText, timeText] inputs = .printed (first :: more) ∧
      (outcome ["status", source, dayText, timeText] inputs).exitCode = 0 ∧
      Tells stored.hours (d.midnight + (3600 * hour + 60 * minute : ℕ)) first more := by
  have hparse : Schedule.parse text = .ok stored.normalize := by
    rw [Schedule.parse, hs]
    rfl
  obtain ⟨first, more, hlines, htells⟩ := tells_statusLines stored.hours (d.moment hour minute 0)
  rw [outcome_status hp hd htime hread hparse, Schedule.normalize, hlines]
  exact ⟨first, more, rfl, rfl, htells⟩

/-- Hours that were stored out of order, partly before and partly beyond the week, are closed on Monday at half past
four, half an hour after the Sunday night has ended, and open again on Sunday. -/
theorem status_tells_coverage_monday :
    outcome ["status", "-", "mon", " 4:30"]
      ⟨some "[[[590400,619200],[-3600,1800],[40000,32400]],\"UTC\"]", fun _ => none⟩ =
        .printed ["closed", "opens Sun 20:00"] ∧
    (outcome ["status", "-", "mon", " 4:30"]
      ⟨some "[[[590400,619200],[-3600,1800],[40000,32400]],\"UTC\"]", fun _ => none⟩).exitCode = 0 ∧
    Tells [⟨590400, 619200⟩, ⟨-3600, 1800⟩, ⟨40000, 32400⟩] 16200 "closed" ["opens Sun 20:00"] := by
  have hstored : Value.load Schedule.ofJson? "[[[590400,619200],[-3600,1800],[40000,32400]],\"UTC\"]" =
      .ok ⟨[⟨590400, 619200⟩, ⟨-3600, 1800⟩, ⟨40000, 32400⟩], "UTC"⟩ := rfl
  have htime : Clock.wallTime? " 4:30" = some (4, 30) := rfl
  have hmonday : Weekday.ofText "mon" = .ok Weekday.monday := rfl
  have hlines : outcome ["status", "-", "mon", " 4:30"]
      ⟨some "[[[590400,619200],[-3600,1800],[40000,32400]],\"UTC\"]", fun _ => none⟩ =
        .printed ["closed", "opens Sun 20:00"] := by decide +kernel
  have hread : Inputs.read "-" ⟨some "[[[590400,619200],[-3600,1800],[40000,32400]],\"UTC\"]", fun _ => none⟩ =
      .ok ("[[[590400,619200],[-3600,1800],[40000,32400]],\"UTC\"]", ⟨some "", fun _ => none⟩) := rfl
  obtain ⟨first, more, hprinted, hcode, htells⟩ :=
    status_tells_coverage isPath_stdin hmonday htime hread hstored
  obtain ⟨rfl, rfl⟩ : first = "closed" ∧ more = ["opens Sun 20:00"] := by
    simpa using hprinted.symm.trans hlines
  exact ⟨hlines, hcode, htells⟩

/-- At half past three the night is not over. -/
example : outcome ["status", "-", "mon", "03:30"]
    ⟨some "[[[590400,619200],[-3600,1800],[40000,32400]],\"UTC\"]", fun _ => none⟩ =
      .printed ["open", "closes Mon 04:00"] := by decide +kernel

end Call

end OpeningHours.Command
