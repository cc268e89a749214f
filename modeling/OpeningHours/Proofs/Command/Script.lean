import Mathlib.Tactic.Common
import OpeningHours.Command.Run

/-!
Parts of a run, by what they print and where they fail. What only reads prints nothing. A part is safe if
nothing has been printed where it fails: what does not fail is safe, and so is what goes on safely after a
part that prints nothing. Requests are put together from reading, printing and failing in this way, so every
request is safe.
-/

namespace OpeningHours.Command

namespace Script

variable {α β : Type} {a : Script α} {f : α → Script β} {s s' : Session}

theorem bind_eq_ok_iff {y : β} : (a >>= f) s = .ok y s' ↔ ∃ x r, a s = .ok x r ∧ f x r = .ok y s' := by
  show EStateM.bind a f s = _ ↔ _
  unfold EStateM.bind
  cases a s <;> simp

theorem bind_eq_error_iff {failure : Failure} : (a >>= f) s = .error failure s' ↔
    a s = .error failure s' ∨ ∃ x r, a s = .ok x r ∧ f x r = .error failure s' := by
  show EStateM.bind a f s = _ ↔ _
  unfold EStateM.bind
  cases a s <;> simp

/-! ### Printing -/

theorem printAll_eq (lines : List String) (s : Session) :
    printAll lines s = .ok () { s with printed := s.printed ++ lines } := by
  induction lines generalizing s with
  | nil => simp [printAll, pure, EStateM.pure]
  | cons line lines ih =>
    show (print line >>= fun _ => printAll lines) s = _
    refine bind_eq_ok_iff.2 ⟨(), { s with printed := s.printed ++ [line] }, rfl, ?_⟩
    rw [ih, List.append_assoc]
    rfl

theorem print_eq_printAll (line : String) : print line = printAll [line] := rfl

/-! ### Failing -/

/-- Prints nothing, whether it fails or not. -/
structure Silent (a : Script α) : Prop where
  ok : ∀ {s x s'}, a s = .ok x s' → s'.printed = s.printed
  error : ∀ {s failure s'}, a s = .error failure s' → s'.printed = s.printed

/-- Has printed nothing where it fails. -/
def Safe (a : Script α) : Prop := ∀ s failure s', a s = .error failure s' → s'.printed = s.printed

theorem silent_pure (x : α) : Silent (pure x) := by
  constructor <;> intro s _ s' h <;> cases h
  rfl

theorem silent_throw (failure : Failure) : Silent (throw failure : Script α) := by
  constructor <;> intro s _ s' h <;> cases h
  rfl

theorem Silent.bind (ha : Silent a) (hf : ∀ x, Silent (f x)) : Silent (a >>= f) := by
  constructor
  · intro s y s' h
    obtain ⟨x, r, hx, hy⟩ := bind_eq_ok_iff.1 h
    exact ((hf x).ok hy).trans (ha.ok hx)
  · intro s failure s' h
    rcases bind_eq_error_iff.1 h with h | ⟨x, r, hx, h⟩
    · exact ha.error h
    · exact ((hf x).error h).trans (ha.ok hx)

theorem Silent.bind_safe (ha : Silent a) (hf : ∀ x, Safe (f x)) : Safe (a >>= f) := by
  intro s failure s' h
  rcases bind_eq_error_iff.1 h with h | ⟨x, r, hx, h⟩
  · exact ha.error h
  · exact (hf x _ _ _ h).trans (ha.ok hx)

theorem silent_read (path : String) : Silent (read path) := by
  constructor <;> intro s _ s' h <;> unfold read at h <;> split at h <;> cases h <;> rfl

theorem silent_ofExcept (result : Except Fault α) (failure : Fault → Failure) :
    Silent (ofExcept result failure) := by
  cases result with
  | ok x => exact silent_pure x
  | error fault => exact silent_throw (failure fault)

theorem silent_schedule (path : String) : Silent (schedule path) :=
  (silent_read path).bind fun _ => silent_ofExcept _ _

theorem silent_catalog (path : String) : Silent (catalog path) :=
  (silent_read path).bind fun _ => silent_ofExcept _ _

theorem silent_ranges (texts : List String) : Silent (ranges texts) := silent_ofExcept _ _

/-- Once something is printed, nothing may fail: printing itself does not. -/
theorem safe_printAll (lines : List String) : Safe (printAll lines) := by
  intro s failure s' h
  rw [printAll_eq] at h
  cases h

theorem safe_throw (failure : Failure) : Safe (throw failure : Script α) :=
  fun _ _ _ h => (silent_throw failure).error h

theorem safe_edit (s : Schedule) (e : Edit) : Safe (edit s e) :=
  (silent_ofExcept _ _).bind_safe fun _ => safe_printAll [_]

end Script

namespace Request

open Script

theorem safe_answer (s : Schedule) (r : Request) : Safe (r.answer s) := by
  cases r with
  | normalize source => exact safe_edit s .normalize
  | day source d => exact safe_printAll _
  | setDay source d texts => exact (silent_ranges texts).bind_safe fun openings => safe_edit s _
  | clearDay source d => exact safe_edit s (.clearDay d)
  | status source d time =>
    rw [answer]
    split
    · exact safe_printAll _
    · exact safe_throw _
  | timezone source path =>
    exact (silent_catalog path).bind_safe fun _ => (silent_ofExcept _ _).bind_safe fun _ => safe_printAll [_]

/-- No request prints anything before it fails. -/
theorem safe_run (r : Request) : Safe r.run :=
  (silent_schedule r.source).bind_safe fun s => safe_answer s r

end Request

end OpeningHours.Command
