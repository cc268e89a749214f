import OpeningHours.Proofs.Hours.Cycle

/-!
The normal form decides coverage. Before the ends of the week are joined, the normal form is the one
separated list inside the week that covers what the hours cover (`flat`). Joining at the seam moves a
short first interval behind the last one, which changes no coverage. Main statement: two lists have the
same normal form just when they cover the same seconds, and the normal form covers what they cover.
-/

namespace OpeningHours.Hours

/-! ### Before the seam is joined -/

/-- The openings of the week, cut at its ends. -/
def flat (h : Hours) : Hours :=
  match h.reduce? with
  | none => [⟨0, week⟩]
  | some pieces => merge pieces

theorem normalize_eq (h : Hours) : h.normalize = joinSeam h.flat := by
  unfold normalize flat
  cases h.reduce? with
  | none => rfl
  | some g => rfl

theorem separated_flat (h : Hours) : h.flat.Separated := by
  unfold flat
  cases h.reduce? with
  | none => exact separated_singleton (by decide)
  | some g => exact separated_merge g

theorem inside_flat (h : Hours) : h.flat.Inside := by
  unfold flat
  cases hr : h.reduce? with
  | none => simp [Inside, week]
  | some g =>
    apply (separated_merge g).inside
    intro t ht
    exact (reduce?_spec hr).1.bounds (holds_merge.1 ht)

theorem covers_flat {h : Hours} {t : Int} : h.flat.Covers t ↔ h.Covers t := by
  unfold flat
  cases hr : h.reduce? with
  | none =>
    have hfull : Covers [⟨0, week⟩] t := ⟨_, List.mem_cons_self, Interval.covers_of_week_le (by decide) t⟩
    exact iff_of_true hfull (covers_of_hasFullWeek (reduce?_eq_none_iff.1 hr) t)
  | some g =>
    show (merge g).Covers t ↔ h.Covers t
    rw [covers_congr fun _ => holds_merge, (reduce?_spec hr).2]

/-- Inside the week, a separated list is determined by what it covers. -/
theorem Separated.ext_of_inside {g h : Hours} (hg : g.Separated) (hh : h.Separated) (gi : g.Inside)
    (hi : h.Inside) (ht : ∀ t, g.Covers t ↔ h.Covers t) : g = h := by
  have key : ∀ {f : Hours}, f.Inside → ∀ t, f.Holds t ↔ (0 ≤ t ∧ t < week) ∧ f.Covers t := by
    intro f hf t
    rw [hf.covers_iff_holds]
    constructor
    · intro h
      have hb := hf.bounds h
      exact ⟨hb, by rwa [Int.emod_eq_of_lt hb.1 hb.2]⟩
    · rintro ⟨hb, h⟩
      rwa [Int.emod_eq_of_lt hb.1 hb.2] at h
  apply hg.ext hh
  intro t
  rw [key gi, key hi, ht]

theorem eq_flat {g h : Hours} (hg : g.Separated) (gi : g.Inside)
    (ht : ∀ t, g.Covers t ↔ h.Covers t) : h.flat = g :=
  (separated_flat h).ext_of_inside hg (inside_flat h) gi fun t => covers_flat.trans (ht t).symm

/-! ### The seam -/

/-- A list is empty, has one interval, or has a first and a last one. -/
theorem ends_cases (h : Hours) :
    h = [] ∨ (∃ i, h = [i]) ∨ ∃ s b mid a e, h = ⟨s, b⟩ :: (mid ++ [⟨a, e⟩]) := by
  rcases h with _ | ⟨⟨s, b⟩, rest⟩
  · exact .inl rfl
  rcases List.eq_nil_or_concat rest with rfl | ⟨mid, ⟨a, e⟩, rfl⟩
  · exact .inr (.inl ⟨_, rfl⟩)
  · exact .inr (.inr ⟨s, b, mid, a, e, by rw [List.concat_eq_append]⟩)

theorem meetsAtSeam_ends {s b a e : Int} {mid : Hours} :
    MeetsAtSeam (⟨s, b⟩ :: (mid ++ [⟨a, e⟩])) ↔ s = 0 ∧ e = week := by
  unfold MeetsAtSeam
  rw [← List.cons_append, List.getLast?_concat]
  simp

/-- A list that starts at the seam and ends there has a first and a last interval. -/
theorem meetsAtSeam_iff {h : Hours} :
    h.MeetsAtSeam ↔ ∃ b mid a, h = ⟨0, b⟩ :: (mid ++ [⟨a, week⟩]) := by
  constructor
  · intro hm
    rcases ends_cases h with rfl | ⟨i, rfl⟩ | ⟨s, b, mid, a, e, rfl⟩
    · exact absurd hm.1 (by simp)
    · exact absurd hm.1 (by simp)
    · obtain ⟨rfl, rfl⟩ := meetsAtSeam_ends.1 hm
      exact ⟨b, mid, a, rfl⟩
  · rintro ⟨b, mid, a, rfl⟩
    exact meetsAtSeam_ends.2 ⟨rfl, rfl⟩

/-- Joining leaves a list alone, or moves a short first interval behind the last one. -/
theorem joinSeam_cases (h : Hours) :
    (joinSeam h = h ∧ (h.MeetsAtSeam → ∀ first ∈ h.head?, spill < first.stop)) ∨
    ∃ b mid a, h = ⟨0, b⟩ :: (mid ++ [⟨a, week⟩]) ∧ b ≤ spill ∧
      joinSeam h = mid ++ [⟨a, b + week⟩] := by
  rcases ends_cases h with rfl | ⟨i, rfl⟩ | ⟨s, b, mid, a, e, rfl⟩
  · exact .inl ⟨rfl, fun hm => absurd hm.1 (by simp)⟩
  · exact .inl ⟨rfl, fun hm => absurd hm.1 (by simp)⟩
  by_cases hj : s = 0 ∧ e = week ∧ b ≤ spill
  · obtain ⟨rfl, rfl, hb⟩ := hj
    exact .inr ⟨b, mid, a, rfl, hb, by simp [joinSeam, hb]⟩
  · refine .inl ⟨by simp [joinSeam, hj], fun hm first hf => ?_⟩
    obtain ⟨rfl, rfl⟩ := meetsAtSeam_ends.1 hm
    obtain rfl : ⟨0, b⟩ = first := by simpa using hf
    by_contra hle
    exact hj ⟨rfl, rfl, Int.not_lt.1 hle⟩

theorem covers_wrap {a b t : Int} (hb : 0 ≤ b) (ha : a ≤ week) :
    (⟨a, b + week⟩ : Interval).Covers t ↔
      (⟨0, b⟩ : Interval).Covers t ∨ (⟨a, week⟩ : Interval).Covers t := by
  simp only [Interval.Covers, Interval.mem_iff]
  constructor
  · rintro ⟨k, hk⟩
    by_cases hlt : t + k * week < week
    · exact .inr ⟨k, hk.1, hlt⟩
    · refine .inl ⟨k - 1, ?_⟩
      simp only [week] at *
      omega
  · rintro (⟨k, hk⟩ | ⟨k, hk⟩)
    · refine ⟨k + 1, ?_⟩
      simp only [week] at *
      omega
    · exact ⟨k, by omega⟩

/-- Joining at the seam changes no coverage. -/
theorem covers_joinSeam {h : Hours} (hs : h.Separated) (hi : h.Inside) {t : Int} :
    (joinSeam h).Covers t ↔ h.Covers t := by
  rcases joinSeam_cases h with ⟨he, -⟩ | ⟨b, mid, a, rfl, -, he⟩
  · rw [he]
  · have hb := hs.proper ⟨0, b⟩ (by simp)
    have ha := hs.proper ⟨a, week⟩ (by simp)
    simp only [Interval.Proper] at hb ha
    rw [he]
    simp only [covers_append, covers_cons, not_covers_nil, or_false]
    rw [covers_wrap (by omega) (by omega)]
    tauto

theorem covers_normalize {h : Hours} {t : Int} : h.normalize.Covers t ↔ h.Covers t := by
  rw [normalize_eq, covers_joinSeam (separated_flat h) (inside_flat h), covers_flat]

/-- Hours that cover the same have the same normal form. -/
theorem normalize_congr {g h : Hours} (ht : ∀ t, g.Covers t ↔ h.Covers t) :
    g.normalize = h.normalize := by
  have hflat := eq_flat (separated_flat h) (inside_flat h) fun t => covers_flat.trans (ht t).symm
  rw [normalize_eq, normalize_eq, hflat]

/-- Two lists have the same normal form exactly when they cover the same seconds of the cycle, and the
normal form covers the seconds that they cover. -/
theorem normalize_eq_iff_covers (g h : Hours) :
    (g.normalize = h.normalize ↔ ∀ t, g.Covers t ↔ h.Covers t) ∧
    ∀ t, g.normalize.Covers t ↔ g.Covers t := by
  constructor
  · constructor
    · intro he t
      rw [← covers_normalize, he, covers_normalize]
    · exact normalize_congr
  · intro t
    exact covers_normalize

end OpeningHours.Hours
