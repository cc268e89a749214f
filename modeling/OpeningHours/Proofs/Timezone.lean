import OpeningHours.Proofs.Text
import OpeningHours.Timezone

/-!
What the label of a timezone tells. A label is an offset to the minute and a name, and it can be read in one way
only. Main statement: that reading gives the name of the timezone and its offset without the seconds.
-/

namespace OpeningHours.Timezone

open Text

/-- `text` shows an offset of so many hours and minutes, before universal time or not, and a name. -/
def IsLabel (text : String) (negative : Bool) (hours minutes : ℕ) (name : String) : Prop :=
  ∃ hh mm : String,
    text = "(UTC" ++ (if negative then "-" else "+") ++ hh ++ ":" ++ mm ++ ") " ++ name ∧
    Denotes hh.toList hours ∧ 2 ≤ hh.length ∧ Denotes mm.toList minutes ∧ mm.length = 2 ∧ minutes ≤ 59

/-- The characters of a label. -/
theorem toList_label (negative : Bool) (hh mm name : String) :
    ("(UTC" ++ (if negative then "-" else "+") ++ hh ++ ":" ++ mm ++ ") " ++ name).toList =
      ['(', 'U', 'T', 'C'] ++ (if negative then '-' else '+') ::
        (hh.toList ++ ':' :: (mm.toList ++ ([')', ' '] ++ name.toList))) := by
  cases negative <;> simp

section IsLabel

variable {text name name' : String} {negative negative' : Bool} {hours hours' minutes minutes' : ℕ}

/-- The digits of the hours end at the first colon, those of the minutes after two, and what is left is the
name. -/
theorem IsLabel.unique (h : IsLabel text negative hours minutes name)
    (h' : IsLabel text negative' hours' minutes' name') :
    negative = negative' ∧ hours = hours' ∧ minutes = minutes' ∧ name = name' := by
  obtain ⟨hh, mm, htext, hhours, -, hminutes, hlen, -⟩ := h
  obtain ⟨hh', mm', htext', hhours', -, hminutes', hlen', -⟩ := h'
  have heq := congrArg String.toList (htext.symm.trans htext')
  rw [toList_label, toList_label] at heq
  obtain ⟨hsign, hrest⟩ := List.cons.inj (List.append_cancel_left heq)
  obtain ⟨hhh, hrest⟩ := append_cons_inj (hhours.not_mem (by decide)) (hhours'.not_mem (by decide)) hrest
  obtain ⟨hmm, hrest⟩ := List.append_inj hrest (hlen.trans hlen'.symm)
  refine ⟨?_, ?_, ?_, ?_⟩
  · revert hsign
    cases negative <;> cases negative' <;> decide
  · exact hhours.unique (hhh ▸ hhours')
  · exact hminutes.unique (hmm ▸ hminutes')
  · exact String.toList_inj.1 (List.append_cancel_left hrest)

end IsLabel

/-- The label of a timezone shows its offset without the seconds, and its name. -/
theorem isLabel_label (z : Timezone) : IsLabel z.label (z.utcOffset.toInt < 0)
    (z.utcOffset.toInt.natAbs / 60 / 60) (z.utcOffset.toInt.natAbs / 60 % 60) z.name := by
  have hlen : (twoDigits (z.utcOffset.toInt.natAbs / 60 % 60)).length = 2 := length_twoDigits (by omega)
  refine ⟨String.ofList (twoDigits (z.utcOffset.toInt.natAbs / 60 / 60)),
    String.ofList (twoDigits (z.utcOffset.toInt.natAbs / 60 % 60)), String.toList_inj.1 ?_, ?_, ?_, ?_, ?_, by omega⟩
  · rw [toList_label]
    simp [label, labelChars, offsetChars]
  · simpa using denotes_twoDigits _
  · simpa using two_le_length_twoDigits _
  · simpa using denotes_twoDigits _
  · simpa using hlen

/-- The offset that a label shows, in seconds. -/
def shownOffset (negative : Bool) (hours minutes : ℕ) : Int :=
  (if negative then -1 else 1) * (3600 * hours + 60 * minutes)

theorem tdiv_sixty (offset : Int) :
    offset.tdiv 60 = if offset < 0 then -(offset.natAbs / 60 : Int) else offset.natAbs / 60 := by
  split_ifs with hneg
  · rw [← Int.neg_inj, ← Int.neg_tdiv, Int.tdiv_eq_ediv_of_nonneg (by omega)]
    omega
  · rw [Int.tdiv_eq_ediv_of_nonneg (by omega)]
    omega

theorem shownOffset_eq (offset : Int) :
    shownOffset (offset < 0) (offset.natAbs / 60 / 60) (offset.natAbs / 60 % 60) = offset.tdiv 60 * 60 := by
  rw [tdiv_sixty, shownOffset]
  simp only [decide_eq_true_eq]
  split_ifs <;> omega

/-- Every label has the form of one. However a label is read, it gives the name of the timezone and its offset, cut
to whole minutes towards zero. So among timezones of one name with offsets in whole minutes the label tells the
offset. -/
theorem label_reads_back :
    (∀ z : Timezone, ∃ hours minutes, IsLabel z.label (z.utcOffset.toInt < 0) hours minutes z.name) ∧
    (∀ (z : Timezone) (negative : Bool) (hours minutes : ℕ) (name : String),
      IsLabel z.label negative hours minutes name → name = z.name ∧ (negative = true ↔ z.utcOffset.toInt < 0) ∧
        shownOffset negative hours minutes = z.utcOffset.toInt.tdiv 60 * 60) ∧
    ∀ z z' : Timezone, z.name = z'.name → 60 ∣ z.utcOffset.toInt → 60 ∣ z'.utcOffset.toInt →
      (z.label = z'.label ↔ z.utcOffset = z'.utcOffset) := by
  have hread : ∀ (z : Timezone) (negative : Bool) (hours minutes : ℕ) (name : String),
      IsLabel z.label negative hours minutes name → name = z.name ∧ (negative = true ↔ z.utcOffset.toInt < 0) ∧
        shownOffset negative hours minutes = z.utcOffset.toInt.tdiv 60 * 60 := by
    intro z negative hours minutes name h
    obtain ⟨rfl, rfl, rfl, rfl⟩ := h.unique z.isLabel_label
    exact ⟨rfl, decide_eq_true_iff, shownOffset_eq _⟩
  refine ⟨fun z => ⟨_, _, z.isLabel_label⟩, hread, fun z z' hname hz hz' => ⟨fun hlabel => ?_, fun hoffset => ?_⟩⟩
  · have hshown := (hread z' _ _ _ _ (hlabel ▸ z.isLabel_label)).2.2
    rw [shownOffset_eq, Int.tdiv_mul_cancel hz, Int.tdiv_mul_cancel hz'] at hshown
    exact Int32.toInt_inj.1 hshown
  · rw [label, labelChars, hname, hoffset]
    rfl

/-- The least offset there is, with a name that looks like the end of another label; and half an hour before and
after universal time. -/
theorem label_reads_back_least :
    IsLabel (label ⟨"far", "00:30) Far", -2147483648⟩) true 596523 14 "00:30) Far" ∧
    shownOffset true 596523 14 = Int.tdiv (-2147483648) 60 * 60 ∧
    label ⟨"west", "Half", -1800⟩ ≠ label ⟨"east", "Half", 1800⟩ := by
  obtain ⟨-, hread, hequal⟩ := label_reads_back
  have hlabel : IsLabel (label ⟨"far", "00:30) Far", -2147483648⟩) true 596523 14 "00:30) Far" :=
    ⟨"596523", "14", by decide, numeral?_eq_some_iff.1 (by decide), by decide, numeral?_eq_some_iff.1 (by decide),
      by decide, by decide⟩
  have hwest : (60 : Int) ∣ Int32.toInt (-1800) := by decide
  have heast : (60 : Int) ∣ Int32.toInt 1800 := by decide
  refine ⟨hlabel, (hread _ _ _ _ _ hlabel).2.2, fun heq => ?_⟩
  exact absurd ((hequal ⟨"west", "Half", -1800⟩ ⟨"east", "Half", 1800⟩ rfl hwest heast).1 heq) (by decide)

end OpeningHours.Timezone
