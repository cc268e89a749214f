import OpeningHours.Proofs.Hours.Words
import OpeningHours.Proofs.Json.Record
import OpeningHours.Schedule

/-!
Stored schedules. The ends of canonical hours fit 32 bits, so the normal form of any schedule can be stored
and is read back; whatever is read is in normal form. Main statement: schedules are stored as the same text
exactly when they name the same timezone and cover the same seconds of the cycle.
-/

namespace OpeningHours

open Json

namespace Interval

theorem ofJson?_toJson {i : Interval} (ha : Fits i.start) (hb : Fits i.stop) :
    ofJson? i.toJson = some i := by
  have hstart := Value.toIntBetween?_ofInt ha.1 ha.2
  have hstop := Value.toIntBetween?_ofInt hb.1 hb.2
  simp only [toJson, ofJson?, Value.toInt32?, hstart, hstop, Option.bind_eq_bind, Option.bind_some]

end Interval

namespace Hours

theorem ofJson?_toJson {h : Hours} (hf : ∀ i ∈ h, Fits i.start ∧ Fits i.stop) :
    ofJson? h.toJson = some h :=
  Value.toList?_ofList fun i hi => Interval.ofJson?_toJson (hf i hi).1 (hf i hi).2

end Hours

namespace Schedule

/-- The record is read back as it was written if its hours can be stored. -/
theorem ofJson?_toJson {s : Schedule} (hf : ∀ i ∈ s.hours, Fits i.start ∧ Fits i.stop) :
    ofJson? s.toJson = some s := by
  have hfields : s.toJson.fields? ["intervals", "timezone_id"] =
      some [("intervals", s.hours.toJson), ("timezone_id", .ofText s.zone)] :=
    Value.fields?_record (by simp) (by simp)
  have hhours := Hours.ofJson?_toJson hf
  simp [ofJson?, hfields, hhours]

/-- Storing and reading a schedule gives its normal form. -/
theorem parse_render (s : Schedule) : parse s.render = .ok s.normalize := by
  have hc : s.normalize.hours.Canonical := Hours.canonical_normalize s.hours
  rw [parse, render, Value.load_render (ofJson?_toJson hc.fits)]
  show Except.ok s.normalize.normalize = _
  simp only [normalize, (Hours.canonical_normalize s.hours).normalize_eq]

/-- What is read is in normal form. -/
theorem canonical_of_parse {text : String} {s : Schedule} (hs : parse text = .ok s) :
    s.hours.Canonical := by
  unfold parse at hs
  cases hl : Value.load ofJson? text with
  | error fault => rw [hl] at hs; cases hs
  | ok raw =>
    rw [hl] at hs
    obtain rfl : raw.normalize = s := Except.ok.inj hs
    exact Hours.canonical_normalize raw.hours

theorem normalize_of_canonical {s : Schedule} (hc : s.hours.Canonical) : s.normalize = s := by
  rw [normalize, hc.normalize_eq]

/-- A stored text may end with a line break. -/
theorem parse_append_newline (text : String) : parse (text ++ "\n") = parse text := by
  rw [parse, parse, Value.load, Value.load, Value.parse?_append_newline]

/-- Schedules with the same normal form are stored as the same text, and others are not. -/
theorem render_eq_iff {s s' : Schedule} : s.render = s'.render ↔ s.normalize = s'.normalize := by
  constructor
  · intro he
    exact Except.ok.inj (by rw [← parse_render, he, parse_render])
  · intro he
    rw [render, he, render]

/-- What is stored is the record of the normal form, and it is read back as that. Two schedules are stored
as the same text exactly when they name the same timezone and cover the same seconds of the cycle. -/
theorem render_eq_iff_covers :
    (∀ s : Schedule, Value.parse? s.render = some s.normalize.toJson ∧ parse s.render = .ok s.normalize) ∧
    ∀ s s' : Schedule, s.render = s'.render ↔
      s.zone = s'.zone ∧ ∀ t, s.hours.Covers t ↔ s'.hours.Covers t := by
  refine ⟨fun s => ⟨Value.parse?_render _, parse_render s⟩, fun s s' => ?_⟩
  rw [render_eq_iff, normalize, normalize, mk.injEq, and_comm]
  refine and_congr_right fun _ => ⟨fun he t => ?_, Hours.normalize_congr⟩
  rw [← Hours.covers_normalize, he, Hours.covers_normalize]

end Schedule

end OpeningHours
