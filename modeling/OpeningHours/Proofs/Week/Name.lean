import OpeningHours.Fault
import OpeningHours.Proofs.Text
import OpeningHours.Week.Name

/-!
Which texts are days. Apart from the blanks around it, such a text is the number of a weekday or one of its two
names; no text is both, and none is the name of two days. Main statement: reading accepts exactly these texts, and
tells numbers of no day from all other texts.
-/

namespace OpeningHours.Weekday

open Text

/-- The number or a name of day `d`. -/
def IsDay (w : List Char) (d : Weekday) : Prop := DenotesUnsigned w d.val ∨ d.IsNamed w

/-- Why `w` is no day, and what is said of it. -/
inductive DayFault (w : String) : Fault → String → Prop
  | outOfRange {n : ℕ} (hw : DenotesUnsigned w.toList n) (hseven : 7 ≤ n) (hn : n < UInt64.size) :
      DayFault w (.dayOutOfRange w) ("Invalid day: " ++ ("'" ++ w ++ "'") ++ " is not in 0..=6")
  | unknown (hday : ∀ d, ¬ IsDay w.toList d)
      (hrange : ∀ n, DenotesUnsigned w.toList n → ¬ (7 ≤ n ∧ n < UInt64.size)) :
      DayFault w (.unknownDay w) ("Invalid day: " ++ ("'" ++ w ++ "'"))

/-! ### Names -/

section Names

variable {d e : Weekday} {s : List Char} {n : ℕ}

/-- The names of a day. -/
def names (d : Weekday) : List String := [d.shortName, d.fullName]

theorem isNamed_iff : d.IsNamed s ↔ ∃ x ∈ d.names, s.map Char.toLower = x.toList.map Char.toLower := by
  simp [IsNamed, names]

theorem IsNamed.unique (hd : d.IsNamed s) (he : e.IsNamed s) : d = e := by
  have hnames : ∀ d e : Weekday, ∀ x ∈ d.names, ∀ y ∈ e.names,
      x.toList.map Char.toLower = y.toList.map Char.toLower → d = e := by decide
  obtain ⟨x, hx, hsx⟩ := isNamed_iff.1 hd
  obtain ⟨y, hy, hsy⟩ := isNamed_iff.1 he
  exact hnames d e x hx y hy (hsx.symm.trans hsy)

theorem ofName?_eq_some_iff : ofName? s = some d ↔ d.IsNamed s := by
  unfold ofName?
  constructor
  · intro h
    simpa using List.find?_some h
  · intro h
    cases hfind : all.find? (·.IsNamed s) with
    | none =>
      have hnot := List.find?_eq_none.1 hfind d (List.mem_finRange d)
      exact absurd h (by simpa using hnot)
    | some e =>
      have he := List.find?_some hfind
      exact congrArg some (IsNamed.unique (by simpa using he) h)

theorem toLower_of_isDigit {c : Char} (hc : c.isDigit = true) : c.toLower = c := by
  have hdigit : c.val.toNat ≤ 57 := (Char.isDigit_iff_toNat.1 hc).2
  refine dif_neg fun hupper => ?_
  have hletter : 65 ≤ c.val.toNat := UInt32.le_iff_toNat_le.1 hupper.1
  omega

theorem exists_isDigit (h : DenotesUnsigned s n) : ∃ c ∈ s, c.isDigit = true := by
  have hdigits : ∀ {t : List Char}, Denotes t n → ∃ c ∈ t, c.isDigit = true := by
    intro t ht
    obtain ⟨c, hc⟩ := List.exists_mem_of_ne_nil t ht.ne_nil
    exact ⟨c, hc, ht.isDigit c hc⟩
  rcases h with h | ⟨t, rfl, h⟩
  · exact hdigits h
  · obtain ⟨c, hc, hdigit⟩ := hdigits h
    exact ⟨c, List.mem_cons_of_mem _ hc, hdigit⟩

/-- A name has no digits. -/
theorem IsNamed.not_denotes (hd : d.IsNamed s) : ¬ DenotesUnsigned s n := by
  intro h
  have hletters : ∀ d : Weekday, ∀ x ∈ d.names, (x.toList.map Char.toLower).any Char.isDigit = false := by decide
  obtain ⟨x, hx, hsx⟩ := isNamed_iff.1 hd
  obtain ⟨c, hc, hdigit⟩ := exists_isDigit h
  have hmem : c ∈ s.map Char.toLower := List.mem_map.2 ⟨c, hc, toLower_of_isDigit hdigit⟩
  rw [hsx] at hmem
  exact List.any_eq_false.1 (hletters d x hx) c hmem hdigit

end Names

/-! ### Days -/

theorem dayNumber?_eq_some_iff {s : List Char} {n : ℕ} :
    dayNumber? s = some n ↔ DenotesUnsigned s n ∧ n < UInt64.size := by
  rw [dayNumber?, Option.filter_eq_some_iff, unsigned?_eq_some_iff, decide_eq_true_eq]

section OfText

variable {s w : String} {d : Weekday} {n : ℕ} {fault : Fault} {message : String}

theorem ofText_of_number (hw : IsCore s.toList w.toList) (hn : DenotesUnsigned w.toList n)
    (hsize : n < UInt64.size) : ofText s = (ofIndex? n).elim (.error (.dayOutOfRange w)) .ok := by
  simp only [ofText, hw.trim_eq, dayNumber?_eq_some_iff.2 ⟨hn, hsize⟩, String.ofList_toList]
  cases ofIndex? n <;> rfl

theorem ofText_of_no_number (hw : IsCore s.toList w.toList)
    (hno : ∀ n, DenotesUnsigned w.toList n → ¬ n < UInt64.size) :
    ofText s = (ofName? w.toList).elim (.error (.unknownDay w)) .ok := by
  have hnone : dayNumber? w.toList = none := Option.eq_none_iff_forall_ne_some.2 fun n hn =>
    have hread := dayNumber?_eq_some_iff.1 hn
    hno n hread.1 hread.2
  simp only [ofText, hw.trim_eq, hnone, String.ofList_toList]
  cases ofName? w.toList <;> rfl

theorem IsDay.ofText_eq (hw : IsCore s.toList w.toList) (hd : IsDay w.toList d) : ofText s = .ok d := by
  rcases hd with hn | hname
  · have hindex : ofIndex? d.val = some d := dif_pos d.isLt
    rw [ofText_of_number hw hn (Nat.lt_trans d.isLt (by decide)), hindex]
    rfl
  · rw [ofText_of_no_number hw fun n hn => absurd hn hname.not_denotes, ofName?_eq_some_iff.2 hname]
    rfl

theorem DayFault.ofText_eq (hw : IsCore s.toList w.toList) (hf : DayFault w fault message) :
    ofText s = .error fault := by
  cases hf with
  | @outOfRange n hn hseven hsize =>
    have hindex : ofIndex? n = none := dif_neg (Nat.not_lt.2 hseven)
    rw [ofText_of_number hw hn hsize, hindex]
    rfl
  | unknown hday hrange =>
    have hno : ∀ n, DenotesUnsigned w.toList n → ¬ n < UInt64.size := by
      intro n hn hsize
      by_cases hseven : 7 ≤ n
      · exact hrange n hn ⟨hseven, hsize⟩
      · exact hday ⟨n, Nat.not_le.1 hseven⟩ (.inl hn)
    have hname : ofName? w.toList = none := Option.eq_none_iff_forall_ne_some.2 fun d hd =>
      hday d (.inr (ofName?_eq_some_iff.1 hd))
    rw [ofText_of_no_number hw hno, hname]
    rfl

/-- Every text is a day, or there is a reason why it is none. -/
theorem isDay_or_dayFault (w : String) : (∃ d, IsDay w.toList d) ∨ ∃ fault, DayFault w fault fault.message := by
  by_cases hday : ∃ d, IsDay w.toList d
  · exact .inl hday
  · right
    by_cases hrange : ∃ n, DenotesUnsigned w.toList n ∧ 7 ≤ n ∧ n < UInt64.size
    · obtain ⟨n, hn, hseven, hsize⟩ := hrange
      exact ⟨_, .outOfRange hn hseven hsize⟩
    · exact ⟨_, .unknown (not_exists.1 hday) fun n hn hsize => hrange ⟨n, hn, hsize⟩⟩

/-- Without the blanks around it, a text is read as the day of which it is the number or a name. The fault of any
other text quotes it without the blanks, and says of a number of less than 64 bits that it is out of range. -/
theorem ofText_grammar (s : String) : ∃ w : String, IsCore s.toList w.toList ∧
    (∀ d, ofText s = .ok d ↔ IsDay w.toList d) ∧
    ∀ fault, ofText s = .error fault ↔ DayFault w fault fault.message := by
  obtain ⟨w, hw⟩ : ∃ w : String, IsCore s.toList w.toList :=
    ⟨String.ofList (trim s.toList), by simpa using isCore_trim s.toList⟩
  refine ⟨w, hw, ?_⟩
  exact Fault.answer_iff (fun d => IsDay.ofText_eq hw) (fun fault => DayFault.ofText_eq hw) (isDay_or_dayFault w)

example : ofText "\u2003+007" = .error (.dayOutOfRange "+007") ∧
    ofText "18446744073709551616 " = .error (.unknownDay "18446744073709551616") := ⟨rfl, rfl⟩

end OfText

end OpeningHours.Weekday
