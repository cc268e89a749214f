import OpeningHours.Hours.Normal
import OpeningHours.Proofs.Hours.Separated

/-!
Coverage of the cycle. What hours cover does not depend on whole weeks; hours that stay inside the first
week cover just what they hold. Moving an interval by whole weeks and cutting it at the end of the week
loses nothing, so `reduce?` gives pieces inside the week that cover what the hours cover, and gives none
only for hours that cover everything.
-/

namespace OpeningHours

namespace Interval

/-- Holds second `t`, up to whole weeks. -/
def Covers (i : Interval) (t : Int) : Prop := ∃ k : Int, t + k * week ∈ i

theorem covers_of_mem {i : Interval} {t : Int} (ht : t ∈ i) : i.Covers t := ⟨0, by simpa using ht⟩

theorem Covers.proper {i : Interval} {t : Int} (ht : i.Covers t) : i.Proper := by
  obtain ⟨k, hk⟩ := ht
  exact proper_iff_exists_mem.2 ⟨_, hk⟩

theorem covers_add_week {i : Interval} {t : Int} (m : Int) : i.Covers (t + m * week) ↔ i.Covers t := by
  constructor
  · rintro ⟨k, hk⟩
    exact ⟨m + k, by rwa [Int.add_mul, ← Int.add_assoc]⟩
  · rintro ⟨k, hk⟩
    exact ⟨k - m, by rwa [show t + m * week + (k - m) * week = t + k * week by simp only [week]; omega]⟩

theorem covers_shift {i : Interval} {k t : Int} : (i.shift k).Covers t ↔ i.Covers (t - k) := by
  simp only [Covers, mem_shift]
  apply exists_congr
  intro m
  rw [show t + m * week - k = t - k + m * week by omega]

theorem covers_shift_week {i : Interval} {t : Int} (m : Int) :
    (i.shift (m * week)).Covers t ↔ i.Covers t := by
  rw [covers_shift, show t - m * week = t + -m * week by simp only [week]; omega, covers_add_week]

theorem duration_of_proper {i : Interval} (hi : i.Proper) : i.duration = i.stop - i.start := by
  simp only [Proper, duration] at *
  omega

/-- An interval of a whole week covers everything. -/
theorem covers_of_week_le {i : Interval} (hi : week ≤ i.duration) (t : Int) : i.Covers t := by
  refine ⟨-((t - i.start) / week), ?_⟩
  simp only [duration, week, mem_iff] at *
  omega

/-- Inside the week, covering is holding. -/
theorem covers_iff_mem_emod {i : Interval} (h0 : 0 ≤ i.start) (hw : i.stop ≤ week) {t : Int} :
    i.Covers t ↔ t % week ∈ i := by
  constructor
  · rintro ⟨k, hk⟩
    simp only [week, mem_iff] at *
    omega
  · intro ht
    refine ⟨-(t / week), ?_⟩
    simp only [week, mem_iff] at *
    omega

end Interval

namespace Hours

@[simp] theorem not_covers_nil (t : Int) : ¬ Covers [] t := by simp [Covers]

theorem covers_iff {h : Hours} {t : Int} : h.Covers t ↔ ∃ i ∈ h, i.Covers t := Iff.rfl

@[simp] theorem covers_cons {i : Interval} {h : Hours} {t : Int} :
    Covers (i :: h) t ↔ i.Covers t ∨ h.Covers t := by simp [covers_iff]

@[simp] theorem covers_append {g h : Hours} {t : Int} :
    Covers (g ++ h) t ↔ g.Covers t ∨ h.Covers t := by
  simp only [covers_iff, List.mem_append, or_and_right, exists_or]

theorem covers_add_week {h : Hours} {t : Int} (m : Int) : h.Covers (t + m * week) ↔ h.Covers t :=
  exists_congr fun _ => and_congr_right fun _ => Interval.covers_add_week m

theorem covers_emod {h : Hours} {t : Int} : h.Covers (t % week) ↔ h.Covers t := by
  rw [← covers_add_week (t / week), Int.mul_comm, Int.emod_add_mul_ediv]

/-- Coverage sees only the place of a second on the cycle. -/
theorem covers_congr_emod {h : Hours} {t u : Int} (htu : t % week = u % week) :
    h.Covers t ↔ h.Covers u := by
  rw [← covers_emod, htu, covers_emod]

theorem covers_shift {h : Hours} {k t : Int} : (h.shift k).Covers t ↔ h.Covers (t - k) := by
  simp only [covers_iff, shift, List.mem_map, exists_exists_and_eq_and, Interval.covers_shift]

/-- Hours that hold the same seconds cover the same. -/
theorem covers_congr {g h : Hours} (hgh : ∀ t, g.Holds t ↔ h.Holds t) (t : Int) :
    g.Covers t ↔ h.Covers t := by
  simp only [covers_iff_holds, hgh]

/-- No interval reaches beyond the first week. -/
def Inside (h : Hours) : Prop := ∀ i ∈ h, 0 ≤ i.start ∧ i.stop ≤ week

theorem Inside.covers_iff_holds {h : Hours} (hh : h.Inside) {t : Int} :
    h.Covers t ↔ h.Holds (t % week) :=
  exists_congr fun i => and_congr_right fun hi => Interval.covers_iff_mem_emod (hh i hi).1 (hh i hi).2

theorem Inside.bounds {h : Hours} (hh : h.Inside) {t : Int} (ht : h.Holds t) : 0 ≤ t ∧ t < week := by
  obtain ⟨i, hi, ht⟩ := ht
  have := hh i hi
  simp only [Interval.mem_iff] at ht
  omega

/-- The ends of intervals with seconds are bounded by what the hours hold. -/
theorem Separated.inside {h : Hours} (hs : h.Separated)
    (hb : ∀ t, h.Holds t → 0 ≤ t ∧ t < week) : h.Inside := by
  intro i hi
  have hp := hs.proper i hi
  have hfirst := hb i.start ⟨i, hi, Interval.start_mem hp⟩
  have hlast := hb (i.stop - 1) ⟨i, hi, Interval.last_mem hp⟩
  omega

/-! ### Pieces -/

theorem move_eq_shift {i : Interval} (hi : i.Proper) : move i = i.shift (-(i.start / week) * week) := by
  have hd := Int.emod_add_mul_ediv i.start week
  rw [Int.mul_comm] at hd
  simp only [move, Interval.shift, Interval.duration_of_proper hi, Interval.mk.injEq, Int.neg_mul]
  omega

/-- Moving by whole weeks keeps what an interval covers. -/
theorem covers_move {i : Interval} (hi : i.Proper) {t : Int} : (move i).Covers t ↔ i.Covers t := by
  rw [move_eq_shift hi, Interval.covers_shift_week]

theorem move_bounds {i : Interval} (hi : i.Proper) (hw : i.duration < week) :
    0 ≤ (move i).start ∧ (move i).start < week ∧ (move i).Proper ∧ (move i).stop < 2 * week := by
  have hd := Interval.duration_of_proper hi
  simp only [move, Interval.Proper, week] at *
  omega

/-- Cutting at the end of the week keeps what an interval covers. -/
theorem covers_pieces {i : Interval} (hi : i.Proper) {t : Int} : (pieces i).Covers t ↔ i.Covers t := by
  rw [← covers_move hi]
  have h0 : 0 ≤ (move i).start := Int.emod_nonneg _ (by decide)
  have h1 : (move i).start < week := Int.emod_lt_of_pos _ (by decide)
  simp only [pieces]
  split_ifs with hj
  · simp only [covers_cons, not_covers_nil, or_false]
    constructor
    · rintro (⟨k, hk⟩ | ⟨k, hk⟩)
      · exact ⟨k, hk.1, Int.lt_trans hk.2 hj⟩
      · refine ⟨k + 1, ?_⟩
        simp only [Interval.mem_iff, week] at *
        omega
    · rintro ⟨k, hk⟩
      by_cases hlt : t + k * week < week
      · exact .inl ⟨k, hk.1, hlt⟩
      · refine .inr ⟨k - 1, ?_⟩
        simp only [Interval.mem_iff, week] at *
        omega
  · simp only [covers_cons, not_covers_nil, or_false]

theorem pieces_inside {i : Interval} (hi : i.Proper) (hw : i.duration < week) : Inside (pieces i) := by
  obtain ⟨h0, h1, hp, h2⟩ := move_bounds hi hw
  simp only [pieces, Inside]
  split_ifs with hj
  · simp only [List.forall_mem_cons, Interval.Proper] at *
    refine ⟨by omega, by omega, by simp⟩
  · simp only [List.forall_mem_singleton]
    omega

theorem proper_pieces {i : Interval} (hi : i.Proper) (hw : i.duration < week) :
    ∀ p ∈ pieces i, p.Proper := by
  obtain ⟨-, h1, hp, -⟩ := move_bounds hi hw
  simp only [pieces]
  split_ifs with hj
  · simp only [List.forall_mem_cons, Interval.Proper] at *
    refine ⟨h1, by omega, by simp⟩
  · simpa only [List.forall_mem_singleton] using hp

/-! ### All intervals -/

theorem hasFullWeek_iff {h : Hours} : h.hasFullWeek = true ↔ ∃ i ∈ h, week ≤ i.duration := by
  simp [hasFullWeek]

theorem covers_of_hasFullWeek {h : Hours} (hh : h.hasFullWeek = true) (t : Int) : h.Covers t := by
  obtain ⟨i, hi, hw⟩ := hasFullWeek_iff.1 hh
  exact ⟨i, hi, Interval.covers_of_week_le hw t⟩

theorem reduce?_eq_none_iff {h : Hours} : h.reduce? = none ↔ h.hasFullWeek = true := by
  simp [reduce?]

theorem reduce?_eq_some_iff {g h : Hours} : h.reduce? = some g ↔
    (∀ i ∈ h, i.duration < week) ∧ (h.filter (·.Proper)).flatMap pieces = g := by
  have hshort : h.hasFullWeek = true ↔ ¬ ∀ i ∈ h, i.duration < week := by
    simp only [hasFullWeek_iff, not_forall, exists_prop, Int.not_lt]
  simp only [reduce?, hshort, ite_not]
  split_ifs with hs
  · rw [Option.some_inj, and_iff_right hs]
  · simp only [hs, false_and]

/-- The reduction of a list, from its first interval. -/
theorem reduce?_cons (i : Interval) (h : Hours) : reduce? (i :: h) =
    if week ≤ i.duration then none
    else if i.Proper then h.reduce?.map (pieces i ++ ·)
    else h.reduce? := by
  have hfull : hasFullWeek (i :: h) = (decide (week ≤ i.duration) || h.hasFullWeek) := rfl
  simp only [reduce?, hfull, List.filter_cons, Bool.or_eq_true, decide_eq_true_eq]
  by_cases hi : week ≤ i.duration
  · rw [if_pos (.inl hi), if_pos hi]
  · simp only [hi, false_or, if_false]
    split_ifs <;> rfl

/-- What is left after a reduction are the pieces of intervals shorter than a week. -/
theorem mem_reduce? {g h : Hours} (hg : h.reduce? = some g) {p : Interval} :
    p ∈ g ↔ ∃ i ∈ h, i.Proper ∧ i.duration < week ∧ p ∈ pieces i := by
  obtain ⟨hshort, rfl⟩ := reduce?_eq_some_iff.1 hg
  simp only [List.mem_flatMap, List.mem_filter, decide_eq_true_eq, and_assoc]
  exact exists_congr fun i => and_congr_right fun hi => by rw [and_iff_right (hshort i hi)]

theorem proper_of_reduce? {g h : Hours} (hg : h.reduce? = some g) : ∀ p ∈ g, p.Proper := by
  intro p hp
  obtain ⟨i, -, hi, hw, hpi⟩ := (mem_reduce? hg).1 hp
  exact proper_pieces hi hw p hpi

/-- The pieces lie inside the week and cover what the hours cover. -/
theorem reduce?_spec {g h : Hours} (hg : h.reduce? = some g) :
    g.Inside ∧ ∀ t, g.Covers t ↔ h.Covers t := by
  constructor
  · intro p hp
    obtain ⟨i, -, hi, hw, hpi⟩ := (mem_reduce? hg).1 hp
    exact pieces_inside hi hw p hpi
  · intro t
    constructor
    · rintro ⟨p, hp, ht⟩
      obtain ⟨i, hi, hproper, -, hpi⟩ := (mem_reduce? hg).1 hp
      exact ⟨i, hi, (covers_pieces hproper).1 ⟨p, hpi, ht⟩⟩
    · rintro ⟨i, hi, ht⟩
      have hproper := Interval.Covers.proper ht
      obtain ⟨p, hpi, htp⟩ := (covers_pieces hproper).2 ht
      exact ⟨p, (mem_reduce? hg).2 ⟨i, hi, hproper, (reduce?_eq_some_iff.1 hg).1 i hi, hpi⟩, htp⟩

end Hours

end OpeningHours
