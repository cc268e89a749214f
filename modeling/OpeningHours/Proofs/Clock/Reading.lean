import OpeningHours.Clock
import OpeningHours.Fault
import OpeningHours.Proofs.Text

/-!
Which texts are times of day and ranges. A clock reading is hours and minutes with a colon between them; its
minutes are one or two digits, its hours any number of them, as long as it does not go beyond the night after the
day. A time of day has one or two digits for both and ends at 23:59. A range is two readings in order, with a dash between them. Main statement: reading accepts exactly the
ranges, and of any other text it reports the first thing that is wrong.
-/

namespace OpeningHours.Clock

open Text

/-! ### Readings -/

/-- One or two digits that stand for `n`, after blanks if any. -/
def DenotesShort (s : List Char) (n : ℕ) : Prop :=
  ∃ gap ds, s = gap ++ ds ∧ Blank gap ∧ Denotes ds n ∧ ds.length ≤ 2

/-- The text `s` tells second `t` of a day. Its first colon is the one after the hours, which have none. -/
inductive Reads (s : List Char) : Int → Prop
  | intro {hours minutes : List Char} {h m : ℕ} (hs : IsCore s (hours ++ ':' :: minutes))
      (hhours : DenotesUnsigned hours h) (hh : h < UInt32.size) (hminutes : DenotesShort minutes m) (hm : m ≤ 59)
      (hspill : (3600 * h + 60 * m : Int) ≤ day + spill) : Reads s (3600 * h + 60 * m)

theorem twoDigits?_eq_some_iff {bound n : ℕ} {s : List Char} :
    twoDigits? bound s = some n ↔ DenotesShort s n ∧ n < bound := by
  simp only [twoDigits?]
  constructor
  · intro h
    obtain ⟨gap, hs, hgap, -⟩ := trimStart_eq_iff.1 (rfl : trimStart s = trimStart s)
    split_ifs at h with hlen
    rw [Option.filter_eq_some_iff, numeral?_eq_some_iff, decide_eq_true_eq] at h
    exact ⟨⟨gap, trimStart s, hs, hgap, h.1, hlen⟩, h.2⟩
  · rintro ⟨⟨gap, ds, hs, hgap, hds, hlen⟩, hn⟩
    -- the digits begin where the blanks end
    have hfirst : ∀ c ∈ ds.head?, isBlank c = false := fun c hc =>
      isBlank_of_isDigit (hds.isDigit c (List.mem_of_mem_head? hc))
    have hstart : trimStart s = ds := trimStart_eq_iff.2 ⟨gap, hs, hgap, hfirst⟩
    rw [hstart, if_pos hlen, numeral?_eq_some_iff.2 hds, Option.filter_some, if_pos (by simpa using hn)]

/-- Neither digits nor a sign is a colon. -/
theorem colon_not_mem {s : List Char} {n : ℕ} (h : DenotesUnsigned s n) : ':' ∉ s := by
  rcases h with h | ⟨t, rfl, h⟩
  · exact h.not_mem (by decide)
  · rw [List.mem_cons, not_or]
    exact ⟨by decide, h.not_mem (by decide)⟩

theorem reading?_eq_some_iff {s : List Char} {t : Int} : reading? s = some t ↔ Reads s t := by
  unfold reading?
  constructor
  · intro ht
    simp only [Option.bind_eq_bind, Option.bind_eq_some_iff, Prod.exists, cut?_eq_some] at ht
    obtain ⟨hours, minutes, ⟨htrim, -⟩, h, hhours, m, hminutes, ht⟩ := ht
    split_ifs at ht with hspill
    obtain rfl := Option.some.inj ht
    rw [unsigned?_eq_some_iff] at hhours
    rw [twoDigits?_eq_some_iff] at hminutes
    -- with more hours the time would be beyond the night
    have hh : h < UInt32.size := by
      simp only [day, spill] at hspill
      simp only [UInt32.size]
      omega
    exact .intro (htrim ▸ isCore_trim s) hhours hh hminutes.1 (by omega) hspill
  · rintro ⟨hs, hhours, -, hminutes, hm, hspill⟩
    have hcut := cut?_eq_some.2 ⟨hs.trim_eq, colon_not_mem hhours⟩
    have hfield := twoDigits?_eq_some_iff.2 ⟨hminutes, Nat.lt_succ_of_le hm⟩
    simp only [hcut, unsigned?_eq_some_iff.2 hhours, hfield, Option.bind_eq_bind, Option.bind_some, if_pos hspill]

theorem Reads.bounds {s : List Char} {t : Int} (h : Reads s t) : 0 ≤ t ∧ t ≤ day + spill := by
  cases h with
  | intro _ _ _ _ _ hspill => exact ⟨by omega, hspill⟩

section OfText

variable {s : String} {t : Int}

theorem ofText_eq_ok_iff : ofText s = .ok t ↔ Reads s.toList t := by
  rw [← reading?_eq_some_iff, ofText]
  cases reading? s.toList <;> simp

theorem ofText_of_not_reads (hno : ∀ t, ¬ Reads s.toList t) : ofText s = .error (.badClock s) := by
  have hnone : reading? s.toList = none :=
    Option.eq_none_iff_forall_ne_some.2 fun t ht => hno t (reading?_eq_some_iff.1 ht)
  rw [ofText, hnone]

end OfText

/-! ### Times of day -/

/-- The text `s` is the time `h:m` of a day: two short numerals with a colon between them and nothing after them. -/
def IsWallTime (s : List Char) (h m : ℕ) : Prop :=
  ∃ hours minutes, s = hours ++ ':' :: minutes ∧ DenotesShort hours h ∧ h ≤ 23 ∧ DenotesShort minutes m ∧ m ≤ 59

/-- Neither blanks nor digits are a colon. -/
theorem DenotesShort.colon_not_mem {s : List Char} {n : ℕ} (hs : DenotesShort s n) : ':' ∉ s := by
  obtain ⟨gap, ds, rfl, hgap, hds, -⟩ := hs
  rw [List.mem_append, not_or]
  exact ⟨fun hmem => absurd (hgap _ hmem) (by decide), hds.not_mem (by decide)⟩

/-- A time of day is read as its hour and minute, and no other text is read. -/
theorem wallTime?_eq_some_iff {s : String} {h m : ℕ} : wallTime? s = some (h, m) ↔ IsWallTime s.toList h m := by
  unfold wallTime?
  constructor
  · intro hread
    simp only [Option.bind_eq_bind, Option.bind_eq_some_iff, Prod.exists, cut?_eq_some, twoDigits?_eq_some_iff,
      Option.some.injEq, Prod.mk.injEq] at hread
    obtain ⟨hours, minutes, ⟨hs, -⟩, h, ⟨hhours, hh⟩, m, ⟨hminutes, hm⟩, rfl, rfl⟩ := hread
    exact ⟨hours, minutes, hs, hhours, Nat.le_of_lt_succ hh, hminutes, Nat.le_of_lt_succ hm⟩
  · rintro ⟨hours, minutes, hs, hhours, hh, hminutes, hm⟩
    have hcut := cut?_eq_some.2 ⟨hs, hhours.colon_not_mem⟩
    have hhour := twoDigits?_eq_some_iff.2 ⟨hhours, Nat.lt_succ_of_le hh⟩
    have hminute := twoDigits?_eq_some_iff.2 ⟨hminutes, Nat.lt_succ_of_le hm⟩
    simp only [hcut, hhour, hminute, Option.bind_eq_bind, Option.bind_some]

example : wallTime? " 7: 5" = some (7, 5) ∧ wallTime? "07:05 " = none ∧ wallTime? "24:00" = none := by decide

/-! ### Ranges -/

/-- The parts of `s` before and after its first dash. -/
def Parts (s a b : String) : Prop := s = a ++ "-" ++ b ∧ '-' ∉ a.toList

/-- Two readings in order with a dash between them. -/
def IsRange (s : String) (i : Interval) : Prop :=
  ∃ a b, Parts s a b ∧ Reads a.toList i.start ∧ Reads b.toList i.stop ∧ i.start < i.stop

/-- Why `s` is no range, and what is said of it. -/
inductive RangeFault (s : String) : Fault → String → Prop
  | noDash (hs : '-' ∉ s.toList) :
      RangeFault s (.notARange s) ("Invalid time: " ++ ("'" ++ s ++ "'") ++ " is not a HH:MM-HH:MM range")
  | badStart {a b : String} (hs : Parts s a b) (hno : ∀ t, ¬ Reads a.toList t) :
      RangeFault s (.badClock a) ("Invalid time: " ++ ("'" ++ a ++ "'"))
  | badStop {a b : String} {t : Int} (hs : Parts s a b) (ht : Reads a.toList t)
      (hno : ∀ u, ¬ Reads b.toList u) : RangeFault s (.badClock b) ("Invalid time: " ++ ("'" ++ b ++ "'"))
  | reversed {a b : String} {t u : Int} (hs : Parts s a b) (ht : Reads a.toList t) (hu : Reads b.toList u)
      (hle : u ≤ t) :
      RangeFault s (.reversedRange s) ("Invalid time: " ++ ("'" ++ s ++ "'") ++ " ends before it starts")

section Range

variable {s a b : String} {i : Interval} {fault : Fault} {message : String}

theorem exists_parts (hs : '-' ∈ s.toList) : ∃ a b, Parts s a b := by
  obtain ⟨a, b, heq, ha⟩ := List.eq_append_cons_of_mem hs
  refine ⟨String.ofList a, String.ofList b, String.toList_inj.1 ?_, by simpa using ha⟩
  simpa using heq

theorem range_of_parts (hs : Parts s a b) : range s = (do
    let start ← ofText a
    let stop ← ofText b
    if start < stop then .ok ⟨start, stop⟩ else .error (.reversedRange s)) := by
  have hcut : cut? '-' s.toList = some (a.toList, b.toList) := cut?_eq_some.2 ⟨by simp [hs.1], hs.2⟩
  rw [range, hcut]
  simp only [String.ofList_toList]

theorem IsRange.range_eq (h : IsRange s i) : range s = .ok i := by
  obtain ⟨a, b, hs, ht, hu, hlt⟩ := h
  rw [range_of_parts hs, ofText_eq_ok_iff.2 ht, ofText_eq_ok_iff.2 hu]
  exact if_pos hlt

theorem RangeFault.range_eq (h : RangeFault s fault message) : range s = .error fault := by
  cases h with
  | noDash hs => rw [range, cut?_eq_none_iff.2 hs]
  | badStart hs hno =>
    rw [range_of_parts hs, ofText_of_not_reads hno]
    rfl
  | badStop hs ht hno =>
    rw [range_of_parts hs, ofText_eq_ok_iff.2 ht, ofText_of_not_reads hno]
    rfl
  | reversed hs ht hu hle =>
    rw [range_of_parts hs, ofText_eq_ok_iff.2 ht, ofText_eq_ok_iff.2 hu]
    exact if_neg (Int.not_lt.2 hle)

/-- Every text is a range, or something is wrong with it. -/
theorem isRange_or_rangeFault (s : String) :
    (∃ i, IsRange s i) ∨ ∃ fault, RangeFault s fault fault.message := by
  by_cases hs : '-' ∈ s.toList
  · obtain ⟨a, b, hparts⟩ := exists_parts hs
    by_cases ha : ∃ t, Reads a.toList t
    · obtain ⟨t, ht⟩ := ha
      by_cases hb : ∃ u, Reads b.toList u
      · obtain ⟨u, hu⟩ := hb
        by_cases hlt : t < u
        · exact .inl ⟨⟨t, u⟩, a, b, hparts, ht, hu, hlt⟩
        · exact .inr ⟨_, .reversed hparts ht hu (Int.not_lt.1 hlt)⟩
      · exact .inr ⟨_, .badStop hparts ht (not_exists.1 hb)⟩
    · exact .inr ⟨_, .badStart hparts (not_exists.1 ha)⟩
  · exact .inr ⟨_, .noDash hs⟩

theorem IsRange.bounds (h : IsRange s i) : 0 ≤ i.start ∧ i.start < i.stop ∧ i.stop ≤ day + spill := by
  obtain ⟨a, b, -, ht, hu, hlt⟩ := h
  exact ⟨ht.bounds.1, hlt, hu.bounds.2⟩

end Range

/-- Times are read from exactly the clock readings and intervals from exactly the ranges, which lie between
midnight and the end of the night after the day. Of a text that is no range the first fault is reported, with
the part of the text that it is about. -/
theorem range_grammar :
    (∀ s t, ofText s = .ok t ↔ Reads s.toList t) ∧
    (∀ s i, range s = .ok i ↔ IsRange s i) ∧
    (∀ s i, range s = .ok i → 0 ≤ i.start ∧ i.start < i.stop ∧ i.stop ≤ day + spill) ∧
    ∀ s fault, range s = .error fault ↔ RangeFault s fault fault.message := by
  have hanswer : ∀ s, (∀ i, range s = .ok i ↔ IsRange s i) ∧
      ∀ fault, range s = .error fault ↔ RangeFault s fault fault.message := fun s =>
    Fault.answer_iff (fun i => IsRange.range_eq) (fun fault => RangeFault.range_eq) (isRange_or_rangeFault s)
  exact ⟨fun s t => ofText_eq_ok_iff, fun s => (hanswer s).1, fun s i hi => (((hanswer s).1 i).1 hi).bounds,
    fun s => (hanswer s).2⟩

/-- A range with blanks, a sign and a leading zero that lasts until the end of the night, and a text with a second
time that is one minute beyond it. -/
theorem range_grammar_night :
    IsRange "\u3000+021: 5-30:00" ⟨75900, 108000⟩ ∧
    ((0 : Int) ≤ 75900 ∧ (75900 : Int) < 108000 ∧ 108000 ≤ day + spill) ∧
    RangeFault "21:05-30:01 " (.badClock "30:01 ") "Invalid time: '30:01 '" := by
  obtain ⟨-, hok, hbounds, herror⟩ := range_grammar
  have hread : range "\u3000+021: 5-30:00" = .ok ⟨75900, 108000⟩ := rfl
  have hlate : range "21:05-30:01 " = .error (.badClock "30:01 ") := rfl
  exact ⟨(hok _ _).1 hread, hbounds _ _ hread, (herror _ _).1 hlate⟩

end OpeningHours.Clock
