import Mathlib.Data.List.Forall2
import OpeningHours.Command.Run
import OpeningHours.Proofs.Command.Arguments
import OpeningHours.Proofs.Schedule.Edit

/-!
Edits from the command line. A call that asks for an edit prints the edited schedule as it is stored, on one
line, and what it prints can be read again. So calls can be chained, each reading what the one before
has printed, and the last line is that of the same edits made one after the other. The ranges that are
given for a day count as a set.
-/

namespace OpeningHours

namespace Edit

/-- New openings of a day matter only by the seconds that they hold. -/
theorem after_setDay_congr (s : Schedule) (d : Weekday) {q r : Hours} (hqr : ∀ u, q.Holds u ↔ r.Holds u) :
    after s (setDay d q) = after s (setDay d r) := by
  apply after_eq_after rfl
  intro t
  rw [covers_after, covers_after]
  show (if d.InWindow t then q.Holds _ else _) ↔ if d.InWindow t then r.Holds _ else _
  rw [hqr]

end Edit

namespace Command

open Json Text

/-! ### Ranges -/

/-- The ranges that texts stand for, one by one. -/
def ReadsAs (texts : List String) (r : Hours) : Prop := List.Forall₂ (Clock.range · = .ok ·) texts r

theorem ranges_eq {texts : List String} {r : Hours} (hr : ReadsAs texts r) :
    Script.ranges texts = pure r := by
  have hread : texts.mapM Clock.range = .ok r := by
    induction hr with
    | nil => rfl
    | cons hi _ ih => rw [List.mapM_cons, hi, ih]; rfl
  rw [Script.ranges, hread]
  rfl

theorem ReadsAs.isOption {texts : List String} {r : Hours} (hr : ReadsAs texts r) :
    ∀ t ∈ texts, isOption t = false := by
  induction hr with
  | nil => simp
  | cons hi _ ih => exact List.forall_mem_cons.2 ⟨isOption_range hi, ih⟩

/-- Texts that are all readable stand for some ranges. -/
theorem exists_readsAs {texts : List String} (ht : ∀ t ∈ texts, ∃ i, Clock.range t = .ok i) :
    ∃ r, ReadsAs texts r := by
  induction texts with
  | nil => exact ⟨[], .nil⟩
  | cons t texts ih =>
    rw [List.forall_mem_cons] at ht
    obtain ⟨i, hi⟩ := ht.1
    obtain ⟨r, hr⟩ := ih ht.2
    exact ⟨i :: r, .cons hi hr⟩

theorem ReadsAs.holds_iff {texts : List String} {r : Hours} (hr : ReadsAs texts r) {u : Int} :
    r.Holds u ↔ ∃ t ∈ texts, ∃ i, Clock.range t = .ok i ∧ u ∈ i := by
  induction hr with
  | nil => simp
  | cons hi _ ih => simp [ih, hi]

/-! ### One call -/

/-- The arguments of a call ask for an edit of what `source` holds. -/
inductive Asks (source : String) : List String → Edit → Prop
  | normalize : Asks source ["normalize", source] .normalize
  | clearDay {text : String} {d : Weekday} : Weekday.ofText text = .ok d →
      Asks source ["clear-day", source, text] (.clearDay d)
  | setDay {text : String} {d : Weekday} {texts : List String} {r : Hours} :
      Weekday.ofText text = .ok d → texts ≠ [] → ReadsAs texts r →
      Asks source ("set-day" :: source :: text :: texts) (.setDay d r)

section Call

variable {source text : String} {args : List String} {e : Edit} {inputs rest : Inputs} {s : Schedule}

/-- Such arguments are a request for the edit. -/
theorem Asks.exists_request (ha : Asks source args e) (hp : IsPath source) :
    ∃ r : Request, Invocation.ofArguments? args = some (.run r) ∧ r.source = source ∧
      ∀ s, r.answer s = .edit s e := by
  have hpath := path?_eq hp
  cases ha with
  | normalize =>
    refine ⟨.normalize source, ?_, rfl, fun s => rfl⟩
    rw [ofArguments?_values (by decide) (List.forall_mem_singleton.2 hp.2), Request.ofValues?, hpath]
    rfl
  | @clearDay text d hd =>
    refine ⟨.clearDay source d, ?_, rfl, fun s => rfl⟩
    have hv : ∀ v ∈ [source, text], isOption v = false := by simp [hp.2, isOption_weekday hd]
    rw [ofArguments?_values (by decide) hv, Request.ofValues?, hpath, weekday?_eq hd]
    rfl
  | @setDay text d texts r hd hne hr =>
    obtain ⟨t, texts, rfl⟩ := List.exists_cons_of_ne_nil hne
    refine ⟨.setDay source d (t :: texts), ?_, rfl, fun s => ?_⟩
    · have hv : ∀ v ∈ source :: text :: t :: texts, isOption v = false :=
        List.forall_mem_cons.2 ⟨hp.2, List.forall_mem_cons.2 ⟨isOption_weekday hd, hr.isOption⟩⟩
      rw [ofArguments?_values (by decide) hv, Request.ofValues?, hpath, weekday?_eq hd]
      rfl
    · rw [Request.answer, ranges_eq hr]
      rfl

/-- The edited schedule is printed as it is stored. -/
theorem Asks.outcome_eq (ha : Asks source args e) (hp : IsPath source)
    (hread : inputs.read source = .ok (text, rest)) (hs : Schedule.parse text = .ok s) :
    outcome args inputs = .printed [(Edit.after s e).render] := by
  obtain ⟨r, hr, rfl, hanswer⟩ := ha.exists_request hp
  refine outcome_eq_printed hr hread hs ?_
  rw [hanswer, Script.edit, Edit.apply_eq]
  exact Script.print_eq_printAll _

/-- Calls for edits with the same effect have the same outcome, whatever there is to be read. -/
theorem Asks.outcome_congr {args' : List String} {e' : Edit} (ha : Asks source args e)
    (ha' : Asks source args' e') (hp : IsPath source) (he : ∀ s, Edit.after s e = Edit.after s e') :
    outcome args inputs = outcome args' inputs := by
  obtain ⟨r, hr, hsource, hanswer⟩ := ha.exists_request hp
  obtain ⟨r', hr', hsource', hanswer'⟩ := ha'.exists_request hp
  have hedit : ∀ s, Script.edit s e = Script.edit s e' := fun s => by
    rw [Script.edit, Script.edit, Edit.apply_eq, Edit.apply_eq, he]
  have hrun : r.run = r'.run := by
    simp only [Request.run, hsource, hsource', hanswer, hanswer', hedit]
  simp only [outcome, hr, hr', Invocation.outcome, hrun]

end Call

/-! ### Chains of calls -/

/-- Calls one after the other, each reading what the one before has printed, up to the first one that
does not succeed. -/
def pipe (file? : String → Option String) (text : String) : List (List String) → Except Outcome String
  | [] => .ok text
  | args :: calls =>
    let result := outcome args ⟨some text, file?⟩
    if result.exitCode = 0 then pipe file? result.output calls else .error result

theorem read_stdin (text : String) (file? : String → Option String) :
    Inputs.read "-" ⟨some text, file?⟩ = .ok (text, ⟨some "", file?⟩) := by
  simp [Inputs.read, Inputs.text?]

theorem output_line (line : String) : (Outcome.printed [line]).output = line ++ "\n" := by
  simp [Outcome.output, Outcome.lines, String.join]

/-- The call succeeds and prints one line, which holds the schedule `s` and is printed again when it is given back to
be normalized. -/
structure Prints (args : List String) (inputs : Inputs) (s : Schedule) : Prop where
  exitCode : (outcome args inputs).exitCode = 0
  output : ∃ line, (outcome args inputs).output = line ++ "\n" ∧ '\n' ∉ line.toList ∧ Schedule.parse line = .ok s ∧
    ∀ file?, ∀ back ∈ [line, line ++ "\n"], (outcome ["normalize", "-"] ⟨some back, file?⟩).output = line ++ "\n"

/-- An edit that is asked for is what is printed. -/
theorem Asks.prints {source text : String} {args : List String} {e : Edit} {inputs rest : Inputs} {s : Schedule}
    (ha : Asks source args e) (hp : IsPath source) (hread : inputs.read source = .ok (text, rest))
    (hs : Schedule.parse text = .ok s) : Prints args inputs (Edit.after s e) := by
  have hc := Edit.canonical_after s e
  have hline : Schedule.parse (Edit.after s e).render = .ok (Edit.after s e) := by
    rw [Schedule.parse_render, Schedule.normalize_of_canonical hc]
  have hcall := ha.outcome_eq hp hread hs
  refine ⟨by rw [hcall]; rfl, (Edit.after s e).render, by rw [hcall, output_line], Value.newline_not_mem_render _,
    hline, fun file? back hb => ?_⟩
  have hback : Schedule.parse back = .ok (Edit.after s e) := by
    simp only [List.mem_cons, List.not_mem_nil, or_false] at hb
    rcases hb with rfl | rfl
    · exact hline
    · rw [Schedule.parse_append_newline, hline]
  rw [Asks.normalize.outcome_eq isPath_stdin (read_stdin back file?) hback, output_line, Edit.after,
    Schedule.normalize_of_canonical hc]

/-- What a call prints is what the next one reads. -/
theorem Asks.pipe_cons {args : List String} {e : Edit} (ha : Asks "-" args e) {text : String} {s : Schedule}
    (hs : Schedule.parse text = .ok s) (file? : String → Option String) (calls : List (List String)) :
    pipe file? text (args :: calls) = pipe file? ((Edit.after s e).render ++ "\n") calls := by
  have hcall := ha.outcome_eq isPath_stdin (read_stdin text file?) hs
  rw [pipe, hcall, output_line]
  rfl

/-- A chain of calls ends with what the same edits, made one after the other, leave to be stored. -/
theorem pipe_eq {calls : List (List String)} {edits : List Edit}
    (hce : List.Forall₂ (Asks "-") calls edits) (file? : String → Option String) {s : Schedule}
    (hc : s.hours.Canonical) :
    pipe file? (s.render ++ "\n") calls = .ok ((edits.foldl Edit.after s).render ++ "\n") := by
  induction hce generalizing s with
  | nil => rfl
  | @cons args e calls edits ha _ ih =>
    have hs : Schedule.parse (s.render ++ "\n") = .ok s := by
      rw [Schedule.parse_append_newline, Schedule.parse_render, Schedule.normalize_of_canonical hc]
    rw [ha.pipe_cons hs, ih (Edit.canonical_after s e), List.foldl_cons]

/-- The ranges of a day count as a set: neither their order nor their repetition matters. -/
theorem outcome_setDay_congr {source text : String} {d : Weekday} {texts texts' : List String}
    (hp : IsPath source) (hd : Weekday.ofText text = .ok d)
    (hread : ∀ t ∈ texts, ∃ i, Clock.range t = .ok i) (ht : ∀ t, t ∈ texts ↔ t ∈ texts') (inputs : Inputs) :
    outcome ("set-day" :: source :: text :: texts) inputs =
      outcome ("set-day" :: source :: text :: texts') inputs := by
  by_cases hnil : texts = []
  · have hnil' : texts' = [] := List.eq_nil_iff_forall_not_mem.2 fun t h => by simp [hnil, ← ht] at h
    rw [hnil, hnil']
  · have hnil' : texts' ≠ [] := by
      rintro rfl
      exact hnil (List.eq_nil_iff_forall_not_mem.2 fun t h => by simp [ht] at h)
    obtain ⟨q, hq⟩ := exists_readsAs hread
    obtain ⟨r, hr⟩ := exists_readsAs fun t h => hread t ((ht t).2 h)
    refine (Asks.setDay hd hnil hq).outcome_congr (Asks.setDay hd hnil' hr) hp fun s => ?_
    refine Edit.after_setDay_congr s d fun u => ?_
    rw [hq.holds_iff, hr.holds_iff]
    simp only [ht]

/-- A call for an edit of a schedule that can be read succeeds and prints one line with the edited schedule: in normal
form, without the openings of a day, or with new ones in their place. A schedule that can be read is in normal form
already. A chain of such calls prints what the same edits make of the schedule, one after the other. Of the ranges
given for a day, order and repetition do not matter. -/
theorem calls_compose_edits :
    (∀ source inputs text rest s, IsPath source → inputs.read source = .ok (text, rest) →
      Schedule.parse text = .ok s →
      Prints ["normalize", source] inputs s.normalize ∧
      ∀ dayText d, Weekday.ofText dayText = .ok d →
        Prints ["clear-day", source, dayText] inputs (s.clearDay d) ∧
        ∀ texts r, texts ≠ [] → ReadsAs texts r →
          Prints ("set-day" :: source :: dayText :: texts) inputs (s.setDay d r)) ∧
    (∀ text s, Schedule.parse text = .ok s → s.normalize = s) ∧
    (∀ file? text s calls edits, Schedule.parse text = .ok s → calls ≠ [] →
      List.Forall₂ (Asks "-") calls edits →
      Edit.run s edits = .ok (edits.foldl Edit.after s) ∧
        pipe file? text calls = .ok ((edits.foldl Edit.after s).render ++ "\n")) ∧
    ∀ source text d texts texts', IsPath source → Weekday.ofText text = .ok d →
      (∀ t ∈ texts, ∃ i, Clock.range t = .ok i) → (∀ t, t ∈ texts ↔ t ∈ texts') → ∀ inputs,
      outcome ("set-day" :: source :: text :: texts) inputs =
        outcome ("set-day" :: source :: text :: texts') inputs := by
  refine ⟨fun source inputs text rest s hp hread hs => ⟨?_, fun dayText d hd => ⟨?_, fun texts r hne hr => ?_⟩⟩, ?_, ?_,
    fun _ _ _ _ _ => outcome_setDay_congr⟩
  · exact Asks.normalize.prints hp hread hs
  · exact (Asks.clearDay hd).prints hp hread hs
  · exact (Asks.setDay hd hne hr).prints hp hread hs
  · exact fun text s hs => Schedule.normalize_of_canonical (Schedule.canonical_of_parse hs)
  · intro file? text s calls edits hs hne hce
    refine ⟨Edit.run_eq s edits, ?_⟩
    cases hce with
    | nil => exact absurd rfl hne
    | @cons args e calls edits ha hce =>
      rw [ha.pipe_cons hs, pipe_eq hce file? (Edit.canonical_after s e), List.foldl_cons]

/-- The night from Sunday to Monday is stored in two parts. Clearing Sunday leaves nothing. If Monday gets two ranges
first, these are what is left; given twice and in the other order they make no difference. -/
theorem calls_compose_edits_night :
    Prints ["clear-day", "week.json", " sunday "]
      ⟨none, fun _ => some "[[[590400,604800],[0,3600]],\"Europe/Berlin\"]"⟩ ⟨[], "Europe/Berlin"⟩ ∧
    pipe (fun _ => none) "[[[590400,604800],[0,3600]],\"Europe/Berlin\"]"
      [["set-day", "-", "mon", "20:00-27:00", "09:00-17:00"], ["clear-day", "-", "6"]] =
        .ok (Schedule.render ⟨[⟨32400, 61200⟩, ⟨72000, 97200⟩], "Europe/Berlin"⟩ ++ "\n") ∧
    ∀ inputs, outcome ["set-day", "-", "mon", "20:00-27:00", "09:00-17:00"] inputs =
      outcome ["set-day", "-", "mon", "09:00-17:00", "20:00-27:00", "09:00-17:00"] inputs := by
  obtain ⟨hcall, -, hchain, horder⟩ := calls_compose_edits
  have hparse : Schedule.parse "[[[590400,604800],[0,3600]],\"Europe/Berlin\"]" =
      .ok ⟨[⟨590400, 608400⟩], "Europe/Berlin"⟩ := rfl
  have hlate : Clock.range "20:00-27:00" = .ok ⟨72000, 97200⟩ := rfl
  have hearly : Clock.range "09:00-17:00" = .ok ⟨32400, 61200⟩ := rfl
  have hmonday : Weekday.ofText "mon" = .ok Weekday.monday := rfl
  refine ⟨?_, ?_, ?_⟩
  · have hcleared : Schedule.clearDay ⟨[⟨590400, 608400⟩], "Europe/Berlin"⟩ Weekday.sunday =
        ⟨[], "Europe/Berlin"⟩ := by decide
    have hday : Weekday.ofText " sunday " = .ok Weekday.sunday := rfl
    rw [← hcleared]
    exact ((hcall "week.json" _ _ _ _ (by decide) rfl hparse).2 _ _ hday).1
  · have hask : Asks "-" ["set-day", "-", "mon", "20:00-27:00", "09:00-17:00"]
        (.setDay Weekday.monday [⟨72000, 97200⟩, ⟨32400, 61200⟩]) :=
      .setDay hmonday (by decide) (.cons hlate (.cons hearly .nil))
    have hedits : [Edit.setDay Weekday.monday [⟨72000, 97200⟩, ⟨32400, 61200⟩], .clearDay Weekday.sunday].foldl
        Edit.after ⟨[⟨590400, 608400⟩], "Europe/Berlin"⟩ =
          ⟨[⟨32400, 61200⟩, ⟨72000, 97200⟩], "Europe/Berlin"⟩ := by decide
    rw [← hedits]
    exact (hchain _ _ _ _ _ hparse (by decide) (.cons hask (.cons (.clearDay rfl) .nil))).2
  · refine horder _ _ _ _ _ (by decide) hmonday ?_ (by simp [or_comm])
    simp [hlate, hearly]

end Command

end OpeningHours
