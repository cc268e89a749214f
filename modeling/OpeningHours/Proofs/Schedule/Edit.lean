import OpeningHours.Proofs.Hours.Day
import OpeningHours.Proofs.Schedule.Storage
import OpeningHours.Schedule

/-!
Runs of edits. No edit is refused, since what a schedule is stored as can be read back. One edit makes the
hours canonical, writes the seconds of its day's window and leaves all others alone; over a run, the last
edit that writes a second decides whether it is open. Main statements: every schedule that was read or
edited is canonical, and the last writer wins.
-/

namespace OpeningHours.Edit

/-- The schedule after an edit. -/
def after (s : Schedule) : Edit → Schedule
  | normalize => s.normalize
  | setDay d openings => s.setDay d openings
  | clearDay d => s.clearDay d
  | reload => s.normalize

/-- The seconds of the cycle that an edit decides about. -/
def Writes : Edit → Int → Prop
  | setDay d _, t => d.InWindow t
  | clearDay d, t => d.InWindow t
  | _, _ => False

instance (e : Edit) (t : Int) : Decidable (e.Writes t) := by
  cases e <;> unfold Writes <;> infer_instance

/-- Of the seconds it decides about, those that an edit leaves open. -/
def Opens : Edit → Int → Prop
  | setDay d openings, t => openings.Holds ((t - d.midnight) % week)
  | _, _ => False

/-! ### One edit -/

theorem apply_eq (s : Schedule) (e : Edit) : e.apply s = .ok (after s e) := by
  cases e with
  | normalize => rfl
  | setDay d openings => rfl
  | clearDay d => rfl
  | reload => exact s.parse_render

theorem zone_after (s : Schedule) (e : Edit) : (after s e).zone = s.zone := by
  cases e <;> rfl

theorem canonical_after (s : Schedule) (e : Edit) : (after s e).hours.Canonical := by
  cases e with
  | normalize => exact Hours.canonical_normalize s.hours
  | setDay d openings => exact Hours.canonical_replace s.hours d openings
  | clearDay d => exact Hours.canonical_clear s.hours d
  | reload => exact Hours.canonical_normalize s.hours

/-- An edit decides about the seconds it writes and leaves all others as they were. -/
theorem covers_after (s : Schedule) (e : Edit) (t : Int) :
    (after s e).hours.Covers t ↔ if e.Writes t then e.Opens t else s.hours.Covers t := by
  cases e with
  | normalize => exact Hours.covers_normalize
  | setDay d openings => exact Hours.covers_replace
  | clearDay d =>
    show (s.hours.clear d).Covers t ↔ if d.InWindow t then False else s.hours.Covers t
    rw [Hours.covers_clear]
    split_ifs with hd <;> simp [hd]
  | reload => exact Hours.covers_normalize

/-! ### Runs -/

theorem run_eq (s : Schedule) (edits : List Edit) : run s edits = .ok (edits.foldl after s) := by
  induction edits generalizing s with
  | nil => rfl
  | cons e edits ih =>
    have hstep : run s (e :: edits) = (e.apply s).bind fun s => run s edits := rfl
    rw [hstep, apply_eq]
    exact ih (after s e)

theorem zone_foldl (s : Schedule) (edits : List Edit) : (edits.foldl after s).zone = s.zone := by
  induction edits generalizing s with
  | nil => rfl
  | cons e edits ih => rw [List.foldl_cons, ih, zone_after]

/-- Edits keep hours canonical. -/
theorem canonical_foldl {s : Schedule} (hs : s.hours.Canonical) (edits : List Edit) :
    (edits.foldl after s).hours.Canonical := by
  induction edits generalizing s with
  | nil => exact hs
  | cons e edits ih => exact ih (canonical_after s e)

/-- Edits that do not write a second leave it as it was. -/
theorem covers_foldl {edits : List Edit} {t : Int} (he : ∀ e ∈ edits, ¬ e.Writes t) (s : Schedule) :
    (edits.foldl after s).hours.Covers t ↔ s.hours.Covers t := by
  induction edits generalizing s with
  | nil => rfl
  | cons e edits ih =>
    rw [List.forall_mem_cons] at he
    rw [List.foldl_cons, ih he.2, covers_after, if_neg he.1]

/-- After the last edit that writes a second, its openings stay. -/
theorem covers_foldl_last {before rest : List Edit} {e : Edit} {t : Int} (he : e.Writes t)
    (hrest : ∀ f ∈ rest, ¬ f.Writes t) (s : Schedule) :
    ((before ++ e :: rest).foldl after s).hours.Covers t ↔ e.Opens t := by
  rw [List.foldl_append, List.foldl_cons, covers_foldl hrest, covers_after, if_pos he]

/-! ### Order of edits -/

/-- What two schedules look like after an edit is the same if it covers the same. -/
theorem after_eq_after {s s' : Schedule} {e f : Edit} (hz : s.zone = s'.zone)
    (ht : ∀ t, (after s e).hours.Covers t ↔ (after s' f).hours.Covers t) : after s e = after s' f := by
  have hhours := (canonical_after s e).ext (canonical_after s' f) ht
  have hzone : (after s e).zone = (after s' f).zone := by rw [zone_after, zone_after, hz]
  calc after s e = ⟨(after s e).hours, (after s e).zone⟩ := rfl
    _ = ⟨(after s' f).hours, (after s' f).zone⟩ := by rw [hhours, hzone]

/-- An edit undoes an earlier one of which it writes every second. -/
theorem run_overwrite (s : Schedule) {e f : Edit} (hw : ∀ t, e.Writes t → f.Writes t) :
    run s [e, f] = run s [f] := by
  rw [run_eq, run_eq]
  apply congrArg Except.ok
  apply after_eq_after (zone_after s e)
  intro t
  rw [covers_after, covers_after s f]
  split_ifs with hf
  · rfl
  · rw [covers_after, if_neg fun he => hf (hw t he)]

/-- Edits that write no second in common can be swapped. -/
theorem run_swap (s : Schedule) {e f : Edit} (hw : ∀ t, e.Writes t → ¬ f.Writes t) :
    run s [e, f] = run s [f, e] := by
  rw [run_eq, run_eq]
  apply congrArg Except.ok
  apply after_eq_after
  · rw [zone_after, zone_after]
  · intro t
    simp only [covers_after]
    by_cases he : e.Writes t
    · simp only [he, hw t he, if_true, if_false]
    · simp only [he, if_false]

theorem run_swap_setDay (s : Schedule) {d e : Weekday} (hlo : 2 ≤ (e - d).val) (hhi : (e - d).val ≤ 5)
    (q r : Hours) : run s [setDay d q, setDay e r] = run s [setDay e r, setDay d q] :=
  run_swap s fun _ ht => Weekday.not_inWindow_of_apart hlo hhi ht

/-- Openings outside the window leave the day closed. -/
theorem run_setDay_eq_clearDay (s : Schedule) (d : Weekday) {r : Hours}
    (hr : ∀ u, 0 ≤ u → u < day + spill → ¬ r.Holds u) : run s [setDay d r] = run s [clearDay d] := by
  rw [run_eq, run_eq]
  apply congrArg Except.ok
  show after s (setDay d r) = after s (clearDay d)
  apply after_eq_after rfl
  intro t
  rw [covers_after, covers_after]
  show (if d.InWindow t then _ else _) ↔ if d.InWindow t then False else _
  split_ifs with hd
  · exact iff_false_intro (hr _ (Int.emod_nonneg _ (by decide)) hd)
  · rfl

/-! ### Main statements -/

/-- Every schedule that was read, or edited at least once, is canonical, however it is edited further.
Canonical hours are those that normalizing leaves alone, and storing and reading leaves them alone too. -/
theorem run_canonical :
    (∀ text s, Schedule.parse text = .ok s → ∀ edits,
      ∃ s', run s edits = .ok s' ∧ s'.hours.Canonical) ∧
    (∀ s edits, edits ≠ [] → ∃ s', run s edits = .ok s' ∧ s'.hours.Canonical) ∧
    (∀ h : Hours, h.Canonical ↔ h.normalize = h) ∧
    ∀ s : Schedule, s.hours.Canonical → reload.apply s = .ok s := by
  refine ⟨?_, ?_, ?_, ?_⟩
  · intro text s hs edits
    exact ⟨_, run_eq s edits, canonical_foldl (Schedule.canonical_of_parse hs) edits⟩
  · intro s edits hne
    obtain ⟨e, edits, rfl⟩ := List.exists_cons_of_ne_nil hne
    exact ⟨_, run_eq s _, canonical_foldl (canonical_after s e) edits⟩
  · intro h
    exact Hours.canonical_iff_normalize_eq
  · intro s hs
    rw [apply_eq, after, Schedule.normalize, hs.normalize_eq]

/-- A night from Sunday to Monday, read in two parts and cut by an edit of Monday. -/
theorem run_canonical_night :
    Schedule.parse "[[[590400,604800],[0,3600]],\"Europe/Berlin\"]" =
      .ok ⟨[⟨590400, 608400⟩], "Europe/Berlin"⟩ ∧
    (∃ s', run ⟨[⟨590400, 608400⟩], "Europe/Berlin"⟩ [clearDay Weekday.monday, reload] = .ok s' ∧
      s'.hours.Canonical) ∧
    (∃ s', run ⟨[⟨7200, 0⟩, ⟨-3600, 3600⟩], ""⟩ [normalize] = .ok s' ∧ s'.hours.Canonical) ∧
    reload.apply ⟨[⟨590400, 608400⟩], "Europe/Berlin"⟩ = .ok ⟨[⟨590400, 608400⟩], "Europe/Berlin"⟩ := by
  have hread : Schedule.parse "[[[590400,604800],[0,3600]],\"Europe/Berlin\"]" =
      .ok ⟨[⟨590400, 608400⟩], "Europe/Berlin"⟩ := rfl
  refine ⟨hread, run_canonical.1 _ _ hread _, run_canonical.2.1 _ _ (by decide), ?_⟩
  exact run_canonical.2.2.2 _ (Schedule.canonical_of_parse hread)

/-- In any run the last edit that writes a second decides whether it is open; a second that no edit
writes stays as it was, and so does the timezone. -/
theorem run_last_writer (s : Schedule) (edits : List Edit) :
    ∃ s', run s edits = .ok s' ∧ s'.zone = s.zone ∧
      (∀ t before e rest, edits = before ++ e :: rest → e.Writes t → (∀ f ∈ rest, ¬ f.Writes t) →
        (s'.hours.Covers t ↔ e.Opens t)) ∧
      ∀ t, (∀ e ∈ edits, ¬ e.Writes t) → (s'.hours.Covers t ↔ s.hours.Covers t) := by
  refine ⟨_, run_eq s edits, zone_foldl s edits, ?_, ?_⟩
  · intro t before e rest hedits he hrest
    rw [hedits]
    exact covers_foldl_last he hrest s
  · intro t he
    exact covers_foldl he s

/-- Monday is opened and then Sunday is cleared, which closes Monday before 06:00. -/
theorem run_last_writer_night : ∃ s', run ⟨[⟨300000, 300001⟩], "Europe/Berlin"⟩
    [setDay Weekday.monday [⟨0, 28800⟩], clearDay Weekday.sunday, reload] = .ok s' ∧
      ¬ s'.hours.Covers 3600 ∧ s'.hours.Covers 25200 ∧ s'.hours.Covers 300000 := by
  obtain ⟨s', hrun, -, hlast, hkeep⟩ := run_last_writer ⟨[⟨300000, 300001⟩], "Europe/Berlin"⟩
    [setDay Weekday.monday [⟨0, 28800⟩], clearDay Weekday.sunday, reload]
  refine ⟨s', hrun, ?_, ?_, ?_⟩
  · intro hc
    exact (hlast 3600 [setDay Weekday.monday [⟨0, 28800⟩]] _ [reload] rfl (by decide) (by decide)).1 hc
  · refine (hlast 25200 [] _ [clearDay Weekday.sunday, reload] rfl (by decide) (by decide)).2 ?_
    exact ⟨⟨0, 28800⟩, by simp, by decide⟩
  · exact (hkeep 300000 (by decide)).2 ⟨⟨300000, 300001⟩, by simp, 0, by decide⟩

end OpeningHours.Edit
