import Mathlib.Data.Int.LeastGreatest
import Mathlib.Order.Bounds.Basic
import OpeningHours.Proofs.Hours.Count

/-!
When canonical hours next open and when they next close. Both answers are least moments at which something
holds that comes back every week. Such a moment is at most a week away, so it is an end of one of the images
of the intervals, and the least end that qualifies is the answer. Hours that are always open never close,
and an opening that the seam cuts does not close there. Main statements: for all hours, the normal form is
open where they cover, next opens at the least covered moment that is not past, and next closes at the least
later moment at which coverage ends.
-/

namespace OpeningHours.Hours

/-! ### The first moment after another -/

section Weekly

variable {p : Int → Prop} {t u : Int}

/-- The next time is at most a week away. -/
theorem Weekly.le_add_week (hp : Weekly p) (hu : IsLeast {v | t < v ∧ p v} u) : u ≤ t + week := by
  by_contra hlt
  have hback : p (u - week) := (hp.congr (by simp only [week]; omega)).1 hu.1.2
  have hle := hu.2 ⟨show t < u - week by omega, hback⟩
  simp only [week] at hle
  omega

/-- What holds at all holds again after any moment. -/
theorem Weekly.exists_isLeast (hp : Weekly p) (hex : ∃ v, p v) (t : Int) :
    ∃ u, IsLeast {v | t < v ∧ p v} u := by
  obtain ⟨v, hv⟩ := hex
  have hlater : p (t + week - (t - v) % week) := (hp.congr (by simp only [week]; omega)).1 hv
  obtain ⟨u, hu, hmin⟩ := Int.exists_least_of_bdd (P := fun v => t < v ∧ p v)
    ⟨t, fun _ hv => Int.le_of_lt hv.1⟩ ⟨_, by simp only [week]; omega, hlater⟩
  exact ⟨u, hu, hmin⟩

/-- The least of some later moments of the first week, told on the timeline of `t`. If `p` holds at all of
them and they have the place of the least moment at which it holds, that one is found. -/
theorem Weekly.min?_eq (hp : Weekly p) (hu : IsLeast {v | t < v ∧ p v} u) {xs : List Int}
    (hxs : ∀ a ∈ xs, t % week < a ∧ p a) (hmem : t % week + (u - t) ∈ xs) :
    xs.min?.map (t - t % week + ·) = some u := by
  have hmin : xs.min? = some (t % week + (u - t)) := by
    refine List.min?_eq_some_iff.2 ⟨hmem, fun a ha => ?_⟩
    obtain ⟨hlt, hpa⟩ := hxs a ha
    have hthere : p (a - t % week + t) := (hp.congr (by simp only [week]; omega)).1 hpa
    have hle := hu.2 ⟨show t < a - t % week + t by omega, hthere⟩
    omega
  rw [hmin, Option.map_some]
  congr 1
  omega

end Weekly

theorem covers_add_sub {h : Hours} {t v : Int} : h.Covers (t % week + (v - t)) ↔ h.Covers v :=
  covers_congr_emod (by simp only [week]; omega)

theorem exists_covers_iff {h : Hours} : (∃ t, h.Covers t) ↔ ∃ i ∈ h, i.Proper := by
  constructor
  · rintro ⟨t, i, hi, ht⟩
    exact ⟨i, hi, Interval.Covers.proper ht⟩
  · rintro ⟨i, hi, hp⟩
    exact ⟨i.start, i, hi, Interval.covers_of_mem (Interval.start_mem hp)⟩

theorem isActive_iff {h : Hours} : h.isActive = true ↔ ∃ t, h.Covers t := by
  rw [exists_covers_iff]
  simp [isActive]

/-- Hours that are open now and closed at some time close, and until then they stay open. -/
theorem exists_isLeast_closesAt {h : Hours} {t : Int} (ht : h.Covers t) (hclosed : ∃ v, ¬ h.Covers v) :
    ∃ u, IsLeast {v | t < v ∧ h.ClosesAt v} u ∧ ∀ v, t ≤ v → v < u → h.Covers v := by
  have hweekly : Weekly fun v => ¬ h.Covers v := fun v => not_congr (weekly_covers h v)
  obtain ⟨u, ⟨htu, hu⟩, hmin⟩ := hweekly.exists_isLeast hclosed t
  have hrun : ∀ v, t ≤ v → v < u → h.Covers v := by
    intro v htv hvu
    by_contra hv
    have hne : t ≠ v := fun heq => hv (heq ▸ ht)
    have hle := hmin ⟨show t < v by omega, hv⟩
    omega
  refine ⟨u, ⟨⟨htu, hrun _ (by omega) (by omega), hu⟩, fun v hv => hmin ⟨hv.1, hv.2.2⟩⟩, hrun⟩

namespace Canonical

variable {h : Hours} {t u : Int}

/-! ### Opening -/

theorem nextOpen?_of_covers (hc : h.Canonical) (ht : h.Covers t) : h.nextOpen? t = some t := by
  have hmod : 0 ≤ t % week ∧ t % week < 2 * week := by
    simp only [week]
    omega
  exact if_pos ((hc.covers_iff_holds_images hmod.1 hmod.2).1 (covers_emod.2 ht))

theorem nextOpen?_of_isLeast (hc : h.Canonical) (ht : ¬ h.Covers t)
    (hu : IsLeast {v | t < v ∧ h.Covers v} u) : h.nextOpen? t = some u := by
  have hmod : 0 ≤ t % week ∧ t % week < week := by
    simp only [week]
    omega
  have hclosed : ¬ h.images.Holds (t % week) := by
    rintro ⟨j, hj, hs⟩
    exact ht (covers_emod.1 (covers_of_mem_images hj hs))
  refine (if_neg hclosed).trans ((weekly_covers h).min?_eq hu ?_ ?_)
  · intro a ha
    simp only [List.mem_filter, List.mem_map, decide_eq_true_eq] at ha
    obtain ⟨⟨j, hj, rfl⟩, hlt⟩ := ha
    exact ⟨hlt, covers_of_mem_images hj (Interval.start_mem (proper_of_mem_images hj))⟩
  · have hle := (weekly_covers h).le_add_week hu
    have htu : t < u := hu.1.1
    obtain ⟨j, hj, hs⟩ := (hc.covers_iff_holds_images (t := t % week + (u - t)) (by omega) (by omega)).1
      (covers_add_sub.2 hu.1.2)
    refine List.mem_filter.2 ⟨List.mem_map.2 ⟨j, hj, ?_⟩, decide_eq_true (by omega)⟩
    -- a second covered just before would be an earlier answer, or `t` itself
    by_contra hne
    have hbefore : h.Covers (u - 1) := by
      refine (covers_add_sub (t := t)).1 (covers_of_mem_images hj ?_)
      simp only [Interval.mem_iff] at *
      omega
    rcases eq_or_lt_of_le (show t ≤ u - 1 by omega) with heq | hlt
    · exact ht (heq ▸ hbefore)
    · have := hu.2 ⟨hlt, hbefore⟩
      omega

/-- Hours that are never open do not open. -/
theorem nextOpen?_of_not_covers (hc : h.Canonical) (hno : ∀ v, ¬ h.Covers v) : h.nextOpen? t = none := by
  obtain rfl : h = [] := by
    refine List.eq_nil_iff_forall_not_mem.2 fun i hi => hno i.start ⟨i, hi, ?_⟩
    exact Interval.covers_of_mem (Interval.start_mem (hc.proper i hi))
  rfl

/-! ### Closing -/

/-- Hours that are always open do not close. -/
theorem nextClose?_of_forall_covers (hc : h.Canonical) (hall : ∀ v, h.Covers v) : h.nextClose? t = none :=
  if_pos (by simp [hc.week_le_total_iff.2 hall])

theorem nextClose?_of_isLeast (hc : h.Canonical) (hu : IsLeast {v | t < v ∧ h.ClosesAt v} u) :
    h.nextClose? t = some u := by
  have hmod : 0 ≤ t % week ∧ t % week < week := by
    simp only [week]
    omega
  have hactive : h.isActive = true := isActive_iff.2 ⟨_, hu.1.2.1⟩
  have htotal : ¬ week ≤ h.total := fun hle => hu.1.2.2 (hc.week_le_total_iff.1 hle u)
  refine (if_neg (by simp [hactive, htotal])).trans ((weekly_closesAt h).min?_eq hu ?_ ?_)
  · intro a ha
    simp only [List.mem_filter, List.mem_map, Bool.and_eq_true, decide_eq_true_eq, Bool.not_eq_true',
      ← Bool.not_eq_true, hc.isOpenAt_iff_covers] at ha
    obtain ⟨⟨j, hj, rfl⟩, hlt, hclosed⟩ := ha
    exact ⟨hlt, covers_of_mem_images hj (Interval.last_mem (proper_of_mem_images hj)), hclosed⟩
  · have hle := (weekly_closesAt h).le_add_week hu
    have htu : t < u := hu.1.1
    obtain ⟨hlast, hclosed⟩ := hu.1.2
    obtain ⟨j, hj, hs⟩ := (hc.covers_iff_holds_images (t := t % week + (u - 1 - t)) (by omega)
      (by omega)).1 (covers_add_sub.2 hlast)
    simp only [List.mem_filter, List.mem_map, Bool.and_eq_true, decide_eq_true_eq, Bool.not_eq_true',
      ← Bool.not_eq_true, hc.isOpenAt_iff_covers, covers_add_sub]
    refine ⟨⟨j, hj, ?_⟩, by omega, hclosed⟩
    by_contra hne
    refine hclosed ((covers_add_sub (t := t)).1 (covers_of_mem_images hj ?_))
    simp only [Interval.mem_iff] at *
    omega

end Canonical

/-! ### Hours as they are -/

section Normalize

variable {h : Hours} {t u : Int}

theorem isOpenAt_normalize : h.normalize.isOpenAt t = true ↔ h.Covers t :=
  (canonical_normalize h).isOpenAt_iff_covers.trans covers_normalize

theorem nextOpen?_normalize (ht : ¬ h.Covers t) (hu : IsLeast {v | t < v ∧ h.Covers v} u) :
    h.normalize.nextOpen? t = some u :=
  (canonical_normalize h).nextOpen?_of_isLeast (by rwa [covers_normalize])
    (by simpa only [covers_normalize] using hu)

theorem nextOpen?_normalize_of_not_covers (hno : ∀ v, ¬ h.Covers v) : h.normalize.nextOpen? t = none :=
  (canonical_normalize h).nextOpen?_of_not_covers fun v => (not_congr covers_normalize).2 (hno v)

theorem nextClose?_normalize (hu : IsLeast {v | t < v ∧ h.ClosesAt v} u) :
    h.normalize.nextClose? t = some u :=
  (canonical_normalize h).nextClose?_of_isLeast (by simpa only [ClosesAt, covers_normalize] using hu)

theorem nextClose?_normalize_of_forall (hall : ∀ v, h.Covers v) : h.normalize.nextClose? t = none :=
  (canonical_normalize h).nextClose?_of_forall_covers fun v => covers_normalize.2 (hall v)

end Normalize

/-! ### What is found -/

/-- A search that finds the least member of a set if there is one, and nothing otherwise. -/
theorem eq_some_iff_isLeast {s : Set Int} {found : Option Int}
    (hleast : ∀ u, IsLeast s u → found = some u) (hnone : (∀ u, ¬ IsLeast s u) → found = none) (u : Int) :
    found = some u ↔ IsLeast s u := by
  refine ⟨fun hu => ?_, hleast u⟩
  by_cases hex : ∃ v, IsLeast s v
  · obtain ⟨v, hv⟩ := hex
    obtain rfl : v = u := Option.some.inj ((hleast v hv).symm.trans hu)
    exact hv
  · rw [hnone (not_exists.1 hex)] at hu
    cases hu

theorem Weekly.exists_isLeast_iff {p : Int → Prop} (hp : Weekly p) (t : Int) :
    (∃ u, IsLeast {v | t < v ∧ p v} u) ↔ ∃ v, p v :=
  ⟨fun ⟨u, hu⟩ => ⟨u, hu.1.2⟩, fun hex => hp.exists_isLeast hex t⟩

section Found

variable {h : Hours} {t u : Int}

theorem exists_isLeast_covers_iff : (∃ u, IsLeast {v | t ≤ v ∧ h.Covers v} u) ↔ ∃ i ∈ h, i.Proper := by
  have hset : {v | t ≤ v ∧ h.Covers v} = {v | t - 1 < v ∧ h.Covers v} := by
    ext v
    exact and_congr_left' Int.sub_one_lt_iff.symm
  rw [hset, (weekly_covers h).exists_isLeast_iff, exists_covers_iff]

theorem nextOpen?_normalize_of_isLeast (hu : IsLeast {v | t ≤ v ∧ h.Covers v} u) :
    h.normalize.nextOpen? t = some u := by
  by_cases ht : h.Covers t
  · have hself : IsLeast {v | t ≤ v ∧ h.Covers v} t := ⟨⟨Int.le_refl t, ht⟩, fun v hv => hv.1⟩
    rw [hu.unique hself]
    exact (canonical_normalize h).nextOpen?_of_covers (covers_normalize.2 ht)
  · refine nextOpen?_normalize ht ⟨⟨?_, hu.1.2⟩, fun v hv => hu.2 ⟨Int.le_of_lt hv.1, hv.2⟩⟩
    exact lt_of_le_of_ne hu.1.1 fun heq => ht (heq ▸ hu.1.2)

/-- The next opening is the first moment that is not past and covered. -/
theorem nextOpen?_normalize_eq_some_iff :
    h.normalize.nextOpen? t = some u ↔ IsLeast {v | t ≤ v ∧ h.Covers v} u := by
  refine eq_some_iff_isLeast (fun u hu => nextOpen?_normalize_of_isLeast hu) (fun hno => ?_) u
  refine nextOpen?_normalize_of_not_covers fun v hv => ?_
  obtain ⟨u, hu⟩ := exists_isLeast_covers_iff.2 (exists_covers_iff.1 ⟨v, hv⟩)
  exact hno u hu

/-- Coverage ends somewhere if there is some of it, but not all over the week. -/
theorem exists_closesAt_iff : (∃ u, h.ClosesAt u) ↔ (∃ i ∈ h, i.Proper) ∧ ∃ t, ¬ h.Covers t := by
  rw [← exists_covers_iff]
  constructor
  · rintro ⟨u, hu⟩
    exact ⟨⟨u - 1, hu.1⟩, u, hu.2⟩
  · rintro ⟨⟨t, ht⟩, hclosed⟩
    obtain ⟨u, hu, -⟩ := exists_isLeast_closesAt ht hclosed
    exact ⟨u, hu.1.2⟩

theorem nextClose?_normalize_of_not_closesAt (hno : ¬ ∃ u, h.ClosesAt u) :
    h.normalize.nextClose? t = none := by
  rw [exists_closesAt_iff, not_and_or, ← exists_covers_iff] at hno
  rcases hno with hopen | hclosed
  · have hactive : ¬ h.normalize.isActive = true := by
      simpa only [isActive_iff, covers_normalize] using hopen
    exact if_pos (by simp [hactive])
  · exact nextClose?_normalize_of_forall (by simpa using hclosed)

/-- The next closing is the first later moment at which coverage ends. -/
theorem nextClose?_normalize_eq_some_iff :
    h.normalize.nextClose? t = some u ↔ IsLeast {v | t < v ∧ h.ClosesAt v} u := by
  refine eq_some_iff_isLeast (fun u hu => nextClose?_normalize hu) (fun hno => ?_) u
  refine nextClose?_normalize_of_not_closesAt fun hex => ?_
  obtain ⟨u, hu⟩ := (weekly_closesAt h).exists_isLeast hex t
  exact hno u hu

theorem nextOpen?_normalize_eq_none_iff : h.normalize.nextOpen? t = none ↔ ∀ i ∈ h, ¬ i.Proper := by
  simp only [Option.eq_none_iff_forall_ne_some, ne_eq, nextOpen?_normalize_eq_some_iff]
  rw [← not_exists, exists_isLeast_covers_iff]
  simp only [not_exists, not_and]

/-- Hours that are open already open now. -/
theorem nextOpen?_normalize_eq_self_iff : h.normalize.nextOpen? t = some t ↔ h.Covers t := by
  rw [nextOpen?_normalize_eq_some_iff]
  exact ⟨fun ht => ht.1.2, fun ht => ⟨⟨Int.le_refl t, ht⟩, fun v hv => hv.1⟩⟩

/-- Only hours that are never open or always open do not close. -/
theorem nextClose?_normalize_eq_none_iff :
    h.normalize.nextClose? t = none ↔ (∀ i ∈ h, ¬ i.Proper) ∨ ∀ v, h.Covers v := by
  simp only [Option.eq_none_iff_forall_ne_some, ne_eq, nextClose?_normalize_eq_some_iff]
  rw [← not_exists, (weekly_closesAt h).exists_isLeast_iff, exists_closesAt_iff, not_and_or]
  simp only [not_exists, not_and, not_not]

/-- Where the seam cuts an opening the hours do not close. -/
theorem not_closesAt_seam (hm : h.normalize.MeetsAtSeam) {u : Int} (hu : week ∣ u) : ¬ h.ClosesAt u := by
  obtain ⟨k, rfl⟩ := hu
  have hseam := (canonical_normalize h).covers_of_meetsAtSeam hm (t := 0) (by decide) (by decide)
  refine fun hcloses => hcloses.2 ?_
  rw [Int.mul_comm]
  simpa using (covers_add_week k).2 (covers_normalize.1 hseam)

end Found

end OpeningHours.Hours
