import OpeningHours.Proofs.Hours.Canonical

/-!
Merging in one pass. Taken in ascending order, intervals can be merged by looking at nothing but the last one
merged so far: the next interval overlaps or touches it and is united with it, or it starts past its end and is
put behind it. After each step the list is the merged form of what has been taken, so the pass ends with `merge`.
A hull is never taken across a gap, neither in the pass nor where the ends of the week are joined. Main
statement: merging gives the one separated list of the seconds that its intervals hold.
-/

namespace OpeningHours

namespace Interval

/-- Overlaps the other interval or touches it. -/
def Meets (i j : Interval) : Prop := j.start ≤ i.stop ∧ i.start ≤ j.stop

theorem Meets.mem_hull {i j : Interval} (hm : i.Meets j) {t : Int} : t ∈ i.hull j ↔ t ∈ i ∨ t ∈ j :=
  Interval.mem_hull hm.1 hm.2 t

/-- The hull with an interval that starts later. -/
theorem hull_eq {i j : Interval} (hi : i.Proper) (hj : j.Proper) (hs : i.start ≤ j.start) :
    i.hull j = ⟨i.start, max i.stop j.stop⟩ := by
  rw [hull, if_neg (not_not.2 hi), if_neg (not_not.2 hj), Int.min_eq_left hs]

/-- Starts first or, of two that start together, does not stop later. -/
def Before (i j : Interval) : Prop := i.start < j.start ∨ i.start = j.start ∧ i.stop ≤ j.stop

instance (i j : Interval) : Decidable (i.Before j) := inferInstanceAs (Decidable (_ ∨ _))

theorem Before.trans {i j k : Interval} (hij : i.Before j) (hjk : j.Before k) : i.Before k := by
  simp only [Before] at *
  omega

theorem Before.total (i j : Interval) : i.Before j ∨ j.Before i := by
  simp only [Before]
  omega

theorem Before.start_le {i j : Interval} (hij : i.Before j) : i.start ≤ j.start := by
  simp only [Before] at hij
  omega

end Interval

namespace Hours

/-! ### Ascending order -/

/-- The intervals with seconds in ascending order. Only equal intervals come before each other, so there is one
such order. -/
def ascending (h : Hours) : Hours := (h.filter (·.Proper)).mergeSort fun i j => decide (i.Before j)

theorem mem_ascending {h : Hours} {i : Interval} : i ∈ h.ascending ↔ i ∈ h ∧ i.Proper := by
  rw [ascending, (List.mergeSort_perm _ _).mem_iff, List.mem_filter, decide_eq_true_eq]

theorem pairwise_ascending (h : Hours) : h.ascending.Pairwise Interval.Before := by
  have htrans : ∀ i j k : Interval, decide (i.Before j) = true → decide (j.Before k) = true →
      decide (i.Before k) = true := by
    simpa only [decide_eq_true_eq] using fun i j k => Interval.Before.trans
  have htotal : ∀ i j : Interval, (decide (i.Before j) || decide (j.Before i)) = true := by
    simpa only [Bool.or_eq_true, decide_eq_true_eq] using Interval.Before.total
  exact (List.pairwise_mergeSort htrans htotal _).imp of_decide_eq_true

theorem holds_ascending {h : Hours} {t : Int} : h.ascending.Holds t ↔ h.Holds t := by
  rw [← holds_filter_proper (h := h)]
  simp only [Holds, mem_ascending, List.mem_filter, decide_eq_true_eq]

/-! ### The pass -/

/-- Take the next interval in order. -/
def absorb (done : Hours) (i : Interval) : Hours :=
  match done.getLast? with
  | none => [i]
  | some last => if i.start ≤ last.stop then done.dropLast ++ [last.hull i] else done ++ [i]

/-- Take all intervals, one after the other. -/
def scan (h : Hours) : Hours := h.foldl absorb []

theorem absorb_concat (init : Hours) (last i : Interval) :
    absorb (init ++ [last]) i =
      if i.start ≤ last.stop then init ++ [last.hull i] else init ++ [last] ++ [i] := by
  rw [absorb, List.getLast?_concat, List.dropLast_concat]

section Step

variable {done : Hours} {i : Interval}

theorem separated_absorb (hd : done.Separated) (hi : i.Proper) (hs : ∀ p ∈ done, p.start ≤ i.start) :
    (absorb done i).Separated := by
  rcases List.eq_nil_or_concat done with rfl | ⟨init, last, rfl⟩
  · exact separated_singleton hi
  rw [List.concat_eq_append] at *
  obtain ⟨hinit, hlast, hlt⟩ := separated_concat.1 hd
  rw [absorb_concat]
  split_ifs with hmeet
  · -- the last interval keeps its start, so it stays apart from those in front of it
    refine separated_concat.2 ⟨hinit, Interval.proper_hull hlast, fun j hj => ?_⟩
    rw [Interval.hull_eq hlast hi (hs last (by simp))]
    exact hlt j hj
  · refine separated_concat.2 ⟨hd, hi, ?_⟩
    simp only [List.forall_mem_append, List.forall_mem_singleton]
    refine ⟨fun j hj => ?_, Int.not_le.1 hmeet⟩
    have hj := hlt j hj
    simp only [Interval.Proper] at hlast
    omega

theorem holds_absorb (hi : i.Proper) (hs : ∀ p ∈ done, p.start ≤ i.start) {t : Int} :
    (absorb done i).Holds t ↔ done.Holds t ∨ t ∈ i := by
  rcases List.eq_nil_or_concat done with rfl | ⟨init, last, rfl⟩
  · simp [absorb]
  rw [List.concat_eq_append] at *
  rw [absorb_concat]
  split_ifs with hmeet
  · have hstop : last.start ≤ i.stop := Int.le_of_lt (Int.lt_of_le_of_lt (hs last (by simp)) hi)
    simp only [holds_append, holds_cons, holds_nil, or_false, Interval.mem_hull hmeet hstop, or_assoc]
  · simp only [holds_append, holds_cons, holds_nil, or_false]

end Step

/-- Merged intervals start where intervals do, so none starts later than all of them. -/
theorem start_le_of_mem_merge {h : Hours} {a : Int} (hh : ∀ j ∈ h, j.start ≤ a) :
    ∀ p ∈ h.merge, p.start ≤ a := by
  intro p hp
  obtain ⟨hfirst, hbefore⟩ := (separated_merge h).exists_start_eq_iff.1 ⟨p, hp, rfl⟩
  rw [holds_merge] at hfirst hbefore
  obtain ⟨j, hj, hmem⟩ := hfirst
  have hle := hh j hj
  by_contra hlt
  refine hbefore ⟨j, hj, ?_⟩
  simp only [Interval.mem_iff] at *
  omega

/-- A step keeps the list in merged form. -/
theorem absorb_merge {h : Hours} {i : Interval} (hi : i.Proper) (hh : ∀ j ∈ h, j.start ≤ i.start) :
    absorb h.merge i = merge (h ++ [i]) := by
  have hs := start_le_of_mem_merge hh
  apply (separated_absorb (separated_merge h) hi hs).ext (separated_merge _)
  intro t
  rw [holds_absorb hi hs, holds_merge, holds_merge, holds_append, holds_cons]
  simp only [holds_nil, or_false]

/-- After any number of steps the list is the merged form of what has been taken. -/
theorem scan_eq_merge {h : Hours} (hp : ∀ i ∈ h, i.Proper) (hs : h.Pairwise (·.start ≤ ·.start)) :
    scan h = h.merge := by
  induction h using List.reverseRecOn with
  | nil => rfl
  | append_singleton h i ih =>
    simp only [List.forall_mem_append, List.forall_mem_singleton] at hp
    simp only [List.pairwise_append, List.mem_singleton, forall_eq] at hs
    rw [scan, List.foldl_append, ← scan, ih hp.1 hs.1]
    exact absorb_merge hp.2 hs.2.2

/-- What the pass makes of the intervals up to some point in ascending order. -/
theorem scan_front {h front back : Hours} (he : h.ascending = front ++ back) :
    scan front = front.merge := by
  have hsorted := pairwise_ascending h
  rw [he, List.pairwise_append] at hsorted
  refine scan_eq_merge (fun i hi => (mem_ascending.1 (he ▸ List.mem_append_left back hi)).2) ?_
  exact hsorted.1.imp Interval.Before.start_le

theorem scan_ascending (h : Hours) : scan h.ascending = h.merge := by
  rw [scan_front (List.append_nil _).symm]
  exact merge_congr fun _ => holds_ascending

/-- At some point of the pass over the hours, `last` is the last interval and is united with `i`, the next one. -/
def Unites (h : Hours) (last i : Interval) : Prop :=
  ∃ front back, h.ascending = front ++ i :: back ∧ last ∈ (scan front).getLast? ∧ i.start ≤ last.stop

/-- Of two that the pass unites the second one does not start first, since it comes later in the order. -/
theorem Unites.meets {h : Hours} {i last : Interval} (hu : h.Unites last i) : last.Meets i := by
  obtain ⟨front, back, he, hl, hmeet⟩ := hu
  have hi : i.Proper := (mem_ascending.1 (by rw [he]; simp)).2
  have hsorted := pairwise_ascending h
  rw [he, List.pairwise_append] at hsorted
  rw [scan_front he] at hl
  have hstart : last.start ≤ i.start := by
    refine start_le_of_mem_merge (fun j hj => ?_) last (List.mem_of_getLast? hl)
    exact (hsorted.2.2 j hj i List.mem_cons_self).start_le
  exact ⟨hmeet, Int.le_of_lt (Int.lt_of_le_of_lt hstart hi)⟩

/-- The intervals joined at the seam touch each other at the end of the week, and they are united. -/
theorem joinSeam_eq_hull {mid : Hours} {first last : Interval}
    (hs : Separated (first :: (mid ++ [last]))) (h0 : first.start = 0) (hw : last.stop = week)
    (hb : first.stop ≤ spill) : last.Meets (first.shift week) ∧
      joinSeam (first :: (mid ++ [last])) = mid ++ [last.hull (first.shift week)] := by
  have hfirst := hs.proper first (by simp)
  have hlast := hs.proper last (by simp)
  simp only [Interval.Proper] at hfirst hlast
  have hshift : (first.shift week).Proper := Interval.proper_shift.2 hfirst
  have hle : last.start ≤ (first.shift week).start := by
    simp only [Interval.shift]
    omega
  refine ⟨?_, ?_⟩
  · simp only [Interval.Meets, Interval.shift]
    omega
  · rw [Interval.hull_eq hlast hshift hle]
    have hmax : max last.stop (first.shift week).stop = first.stop + week := by
      simp only [Interval.shift]
      omega
    rw [hmax]
    simp [joinSeam, h0, hw, hb]

/-- The merged form consists of intervals with seconds, each of which ends before the next one starts, and it holds
the seconds of the intervals that are merged. So two lists have the same merged form exactly when they hold the
same seconds. One pass in ascending order gives it, and what is united overlaps or touches, in the pass as well as
where the ends of the week are joined, so that a hull adds no seconds between the two. -/
theorem merge_eq_iff_holds (h : Hours) :
    (∀ p ∈ h.merge, p.Proper) ∧ h.merge.IsChain (·.stop < ·.start) ∧
    (∀ t, h.merge.Holds t ↔ ∃ i ∈ h, i.Proper ∧ t ∈ i) ∧
    (∀ g : Hours, g.merge = h.merge ↔ ∀ t, g.Holds t ↔ h.Holds t) ∧
    scan h.ascending = h.merge ∧
    (∀ last i, h.Unites last i → last.Meets i ∧ ∀ t, t ∈ last.hull i ↔ t ∈ last ∨ t ∈ i) ∧
    ∀ first mid last, h.merge = first :: (mid ++ [last]) → first.start = 0 → last.stop = week →
      first.stop ≤ spill → joinSeam h.merge = mid ++ [last.hull (first.shift week)] ∧
        last.Meets (first.shift week) ∧
        ∀ t, t ∈ last.hull (first.shift week) ↔ t ∈ last ∨ t ∈ first.shift week := by
  have hsep := separated_merge h
  refine ⟨hsep.proper, hsep.apart.isChain, fun t => ?_, fun g => ⟨fun he t => ?_, merge_congr⟩,
    scan_ascending h, fun last i hu => ⟨hu.meets, fun t => hu.meets.mem_hull⟩, ?_⟩
  · rw [holds_merge, ← holds_ascending]
    simp only [Holds, mem_ascending, and_assoc]
  · rw [← holds_merge, he, holds_merge]
  · intro first mid last he h0 hw hb
    rw [he] at hsep ⊢
    obtain ⟨hmeet, hjoin⟩ := joinSeam_eq_hull hsep h0 hw hb
    exact ⟨hjoin, hmeet, fun t => hmeet.mem_hull⟩

/-- Two that touch, one inside another, one without seconds and one that ends before it starts. -/
example : Hours.merge [⟨50, 90⟩, ⟨0, 30⟩, ⟨70, 70⟩, ⟨30, 40⟩, ⟨80, 20⟩, ⟨60, 70⟩] = [⟨0, 40⟩, ⟨50, 90⟩] := by
  decide

end Hours

end OpeningHours
