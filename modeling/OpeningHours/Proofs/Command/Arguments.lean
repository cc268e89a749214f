import OpeningHours.Proofs.Command.Script

/-!
Calls with plain arguments. A subcommand followed by values is read as that subcommand with these values, as
long as no value starts with a dash. Texts that name a weekday, a range or a time of day never do, so they
can be given to a subcommand as they are. If the source of the call holds a schedule, the answer about that
schedule is what is printed.
-/

namespace OpeningHours

namespace Text

/-- A first character that is not blank stays first. -/
theorem trim_cons {c : Char} (hc : isBlank c = false) (s : List Char) : ∃ r, trim (c :: s) = c :: r := by
  have hstart : trimStart (c :: s) = c :: s := List.dropWhile_cons_of_neg (by simp [hc])
  have hlast : ∀ xs : List Char, ∃ ys, trimStart (xs ++ [c]) = ys ++ [c] := by
    intro xs
    induction xs with
    | nil => exact ⟨[], List.dropWhile_cons_of_neg (by simp [hc])⟩
    | cons x xs ih =>
      cases hx : isBlank x with
      | true =>
        obtain ⟨ys, hys⟩ := ih
        exact ⟨ys, (List.dropWhile_cons_of_pos hx).trans hys⟩
      | false => exact ⟨x :: xs, List.dropWhile_cons_of_neg (by simp [hx])⟩
  obtain ⟨ys, hys⟩ := hlast s.reverse
  exact ⟨ys.reverse, by rw [trim, hstart, List.reverse_cons, hys]; simp⟩

theorem numeral?_dash (s : List Char) : numeral? ('-' :: s) = none := if_neg (by simp)

end Text

namespace Command

open Text

/-! ### Values -/

/-- The first character of an option. -/
theorem isOption_dash {arg : String} (ho : isOption arg = true) : ∃ s, arg.toList = '-' :: s := by
  unfold isOption at ho
  split at ho
  · next heq => exact ⟨_, heq⟩
  · cases ho

theorem isOption_of_isPrefixOf {arg : String} {c : Char} {p : List Char}
    (hp : ('-' :: c :: p).isPrefixOf arg.toList = true) : isOption arg = true := by
  obtain ⟨s, hs⟩ := List.isPrefixOf_iff_prefix.1 hp
  simp [isOption, ← hs]

theorem isOption_of_isLogLevel {arg : String} (ha : isLogLevel arg = true) : isOption arg = true :=
  isOption_of_isPrefixOf ha

theorem isOption_of_isHelp {arg : String} (ha : isHelp arg = true) : isOption arg = true := by
  simp only [isHelp, Bool.or_eq_true, decide_eq_true_eq] at ha
  rcases ha with rfl | ha
  · decide
  · exact isOption_of_isPrefixOf ha

/-- Values are read as they are. -/
theorem operands?_values {values : List String} (hv : ∀ v ∈ values, isOption v = false) :
    operands? false values = some ⟨values, false⟩ := by
  induction values with
  | nil => rfl
  | cons v values ih =>
    rw [List.forall_mem_cons] at hv
    have hdashes : v ≠ "--" := by
      rintro rfl
      exact absurd hv.1 (by decide)
    have hlevel : v ≠ logLevel := by
      rintro rfl
      exact absurd hv.1 (by decide)
    have hlogged : ¬ isLogLevel v = true := fun h => by simp [isOption_of_isLogLevel h] at hv
    have hhelp : ¬ isHelp v = true := fun h => by simp [isOption_of_isHelp h] at hv
    unfold operands?
    rw [if_neg hdashes, if_neg hlevel, if_neg hlogged, if_neg hhelp, if_neg (by simp [hv.1]), ih hv.2]
    rfl

/-- The subcommands that read a schedule. -/
def scheduleCommands : List String := ["normalize", "day", "set-day", "clear-day", "status", "timezone"]

/-- A subcommand followed by values asks for what it does with them. -/
theorem ofArguments?_values {name : String} (hname : name ∈ scheduleCommands) {values : List String}
    (hv : ∀ v ∈ values, isOption v = false) :
    Invocation.ofArguments? (name :: values) = (Request.ofValues? name values).map .run := by
  have hplain : name ≠ logLevel ∧ ¬ isLogLevel name = true ∧ ¬ isVersion name = true ∧
      ¬ isHelp name = true ∧ name ≠ "help" := by
    revert name
    decide
  obtain ⟨hlevel, hlogged, hversion, hhelp, htopic⟩ := hplain
  unfold Invocation.ofArguments? invocation?
  rw [if_neg hlevel, if_neg hlogged, if_neg hversion, if_neg hhelp, if_neg htopic, operands?_values hv]
  rfl

/-! ### What is never taken for an option -/

theorem isOption_weekday {text : String} {d : Weekday} (hd : Weekday.ofText text = .ok d) :
    isOption text = false := by
  by_contra ho
  obtain ⟨s, hs⟩ := isOption_dash (by simpa using ho)
  obtain ⟨r, hr⟩ := trim_cons (c := '-') (by decide) s
  have hnumber : Weekday.dayNumber? ('-' :: r) = none := by
    have hunsigned : unsigned? ('-' :: r) = numeral? ('-' :: r) := rfl
    rw [Weekday.dayNumber?, hunsigned, numeral?_dash]
    rfl
  have hname : Weekday.ofName? ('-' :: r) = none := by
    have hfirst : ∀ d : Weekday, (d.shortName.toList.map Char.toLower).head? ≠ some '-' ∧
        (d.fullName.toList.map Char.toLower).head? ≠ some '-' := by decide
    refine List.find?_eq_none.2 fun d _ => ?_
    rw [decide_eq_true_eq]
    rintro (h | h)
    · exact (hfirst d).1 (by rw [← h]; rfl)
    · exact (hfirst d).2 (by rw [← h]; rfl)
  rw [Weekday.ofText, hs, hr] at hd
  simp [hnumber, hname] at hd

theorem isOption_range {text : String} {i : Interval} (hi : Clock.range text = .ok i) :
    isOption text = false := by
  by_contra ho
  obtain ⟨s, hs⟩ := isOption_dash (by simpa using ho)
  have hcut : cut? '-' text.toList = some ([], s) := cut?_eq_some.2 ⟨by simp [hs], by simp⟩
  rw [Clock.range, hcut] at hi
  cases hi

theorem isOption_wallTime {text : String} {hm : ℕ × ℕ} (ht : Clock.wallTime? text = some hm) :
    isOption text = false := by
  by_contra ho
  obtain ⟨s, hs⟩ := isOption_dash (by simpa using ho)
  -- whatever stands before the colon begins with the dash
  have hhour : ∀ a, Clock.twoDigits? 24 ('-' :: a) = none := fun a => by
    have hstart : trimStart ('-' :: a) = '-' :: a := List.dropWhile_cons_of_neg (by decide)
    simp [Clock.twoDigits?, hstart, numeral?_dash]
  rw [Clock.wallTime?, hs, cut?, if_neg (by decide)] at ht
  cases hc : cut? ':' s with
  | none => simp [hc] at ht
  | some p => simp [hc, hhour] at ht

/-! ### What is read -/

/-- A path that can be given as a value. -/
def IsPath (source : String) : Prop := source ≠ "" ∧ isOption source = false

instance (source : String) : Decidable (IsPath source) := inferInstanceAs (Decidable (_ ∧ _))

theorem isPath_stdin : IsPath "-" := by decide

theorem path?_eq {source : String} (hp : IsPath source) : path? source = some source := if_neg hp.1

theorem weekday?_eq {text : String} {d : Weekday} (hd : Weekday.ofText text = .ok d) :
    weekday? text = some d := by
  rw [weekday?, hd]
  rfl

/-- The schedule that a source holds, when it is read first. -/
theorem schedule_eq_ok {inputs rest : Inputs} {source text : String} {s : Schedule} (printed : List String)
    (hread : inputs.read source = .ok (text, rest)) (hs : Schedule.parse text = .ok s) :
    Script.schedule source ⟨inputs, printed⟩ = .ok s ⟨rest, printed⟩ := by
  have htext : Script.read source ⟨inputs, printed⟩ = .ok text ⟨rest, printed⟩ := by
    simp only [Script.read, hread]
  refine Script.bind_eq_ok_iff.2 ⟨text, _, htext, ?_⟩
  rw [hs]
  rfl

/-- What a request prints about the schedule that its source holds is the outcome. -/
theorem outcome_eq_printed {args : List String} {inputs rest : Inputs} {r : Request} {text : String}
    {s : Schedule} {lines : List String} (ha : Invocation.ofArguments? args = some (.run r))
    (hread : inputs.read r.source = .ok (text, rest)) (hs : Schedule.parse text = .ok s)
    (hl : r.answer s = .printAll lines) : outcome args inputs = .printed lines := by
  have hrun : r.run ⟨inputs, []⟩ = .ok () ⟨rest, lines⟩ := by
    refine Script.bind_eq_ok_iff.2 ⟨s, _, schedule_eq_ok [] hread hs, ?_⟩
    rw [hl, Script.printAll_eq]
    rfl
  simp only [outcome, ha, Invocation.outcome, hrun]

end Command

end OpeningHours
