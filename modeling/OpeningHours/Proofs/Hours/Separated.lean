import Mathlib.Tactic.Common
import OpeningHours.Hours.Normal

/-!
Separated lists: every interval holds seconds, and each ends before the next one starts. The seconds that
a separated list holds determine the list, and merging gives, for any list, the separated list that
holds the same seconds. The week plays no part here.
-/

namespace OpeningHours

namespace Interval

theorem start_mem {i : Interval} (hi : i.Proper) : i.start ∈ i := ⟨Int.le_refl _, hi⟩

/-- The last second held. -/
theorem last_mem {i : Interval} (hi : i.Proper) : i.stop - 1 ∈ i := by
  simp only [Proper, mem_iff] at *
  omega

theorem mem_hull {i j : Interval} (hij : j.start ≤ i.stop) (hji : i.start ≤ j.stop) (t : Int) :
    t ∈ i.hull j ↔ t ∈ i ∨ t ∈ j := by
  simp only [hull]
  split_ifs with hi hj <;> simp only [Proper, mem_iff] at * <;> omega

theorem proper_hull {i j : Interval} (hi : i.Proper) : (i.hull j).Proper := by
  simp only [hull]
  split_ifs <;> simp only [Proper] at * <;> omega

theorem lt_start_hull {i j : Interval} {a : Int} (hi : a < i.start) (hj : a < j.start) :
    a < (i.hull j).start := by
  simp only [hull]
  split_ifs
  · show a < min i.start j.start
    omega
  · exact hi
  · exact hj

end Interval

namespace Hours

@[simp] theorem holds_nil (t : Int) : ¬ Holds [] t := by simp [Holds]

@[simp] theorem holds_cons {i : Interval} {h : Hours} {t : Int} :
    Holds (i :: h) t ↔ t ∈ i ∨ h.Holds t := by simp [Holds]

theorem holds_flatMap {α : Type} {xs : List α} {f : α → Hours} {t : Int} :
    Holds (xs.flatMap f) t ↔ ∃ x ∈ xs, Holds (f x) t := by
  simp only [Holds, List.mem_flatMap]
  constructor
  · rintro ⟨i, ⟨x, hx, hi⟩, ht⟩
    exact ⟨x, hx, i, hi, ht⟩
  · rintro ⟨x, hx, i, hi, ht⟩
    exact ⟨i, ⟨x, hx, hi⟩, ht⟩

/-- Intervals without seconds do not count. -/
theorem holds_filter_proper {h : Hours} {t : Int} : Holds (h.filter (·.Proper)) t ↔ h.Holds t := by
  simp only [Holds, List.mem_filter, decide_eq_true_eq]
  constructor
  · rintro ⟨i, ⟨hi, -⟩, ht⟩
    exact ⟨i, hi, ht⟩
  · rintro ⟨i, hi, ht⟩
    exact ⟨i, ⟨hi, Interval.proper_iff_exists_mem.2 ⟨t, ht⟩⟩, ht⟩

/-- Every interval holds seconds, and ends before each later one starts. -/
structure Separated (h : Hours) : Prop where
  proper : ∀ i ∈ h, i.Proper
  apart : h.Pairwise (·.stop < ·.start)

theorem separated_nil : Separated [] := ⟨by simp, .nil⟩

theorem separated_singleton {i : Interval} (hi : i.Proper) : Separated [i] :=
  ⟨by simpa using hi, List.pairwise_singleton _ _⟩

theorem separated_cons {i : Interval} {h : Hours} :
    Separated (i :: h) ↔ i.Proper ∧ (∀ j ∈ h, i.stop < j.start) ∧ h.Separated := by
  constructor
  · rintro ⟨hp, ha⟩
    rw [List.pairwise_cons] at ha
    exact ⟨hp i List.mem_cons_self, ha.1, fun j hj => hp j (List.mem_cons_of_mem _ hj), ha.2⟩
  · rintro ⟨hi, ha, hh⟩
    refine ⟨fun j hj => ?_, List.pairwise_cons.2 ⟨ha, hh.apart⟩⟩
    rcases List.mem_cons.1 hj with rfl | hj
    · exact hi
    · exact hh.proper j hj

theorem Separated.sublist {g h : Hours} (hh : h.Separated) (hg : g.Sublist h) : g.Separated :=
  ⟨fun i hi => hh.proper i (hg.subset hi), hh.apart.sublist hg⟩

/-- A map that keeps intervals proper and apart keeps a list separated. -/
theorem Separated.map {h : Hours} (hh : h.Separated) {f : Interval → Interval}
    (hp : ∀ i ∈ h, (f i).Proper)
    (ha : ∀ i ∈ h, ∀ j ∈ h, i.stop < j.start → (f i).stop < (f j).start) : Separated (h.map f) where
  proper := by simpa only [List.forall_mem_map] using hp
  apart := List.pairwise_map.2 (hh.apart.imp_of_mem fun hi hj hij => ha _ hi _ hj hij)

namespace Separated

/-- Two members are the same, or one ends before the other starts. -/
theorem eq_or_lt {h : Hours} (hh : h.Separated) {i j : Interval} (hi : i ∈ h) (hj : j ∈ h) :
    i = j ∨ i.stop < j.start ∨ j.stop < i.start := by
  induction h with
  | nil => cases hi
  | cons x xs ih =>
    obtain ⟨-, hx, hxs⟩ := separated_cons.1 hh
    rw [List.mem_cons] at hi hj
    rcases hi with rfl | hi <;> rcases hj with rfl | hj
    · exact .inl rfl
    · exact .inr (.inl (hx j hj))
    · exact .inr (.inr (hx i hi))
    · exact ih hxs hi hj

theorem start_le {i : Interval} {h : Hours} (hh : Separated (i :: h)) {t : Int}
    (ht : Holds (i :: h) t) : i.start ≤ t := by
  obtain ⟨hi, ha, -⟩ := separated_cons.1 hh
  rcases holds_cons.1 ht with ht | ⟨j, hj, ht⟩
  · exact ht.1
  · have := ha j hj
    simp only [Interval.Proper, Interval.mem_iff] at *
    omega

theorem not_holds_stop {i : Interval} {h : Hours} (hh : h.Separated) (hi : i ∈ h) :
    ¬ h.Holds i.stop := by
  rintro ⟨j, hj, ht⟩
  have hp := hh.proper i hi
  simp only [Interval.Proper, Interval.mem_iff] at hp ht
  rcases hh.eq_or_lt hi hj with rfl | hlt | hlt <;> omega

theorem not_holds_before {i : Interval} {h : Hours} (hh : h.Separated) (hi : i ∈ h) :
    ¬ h.Holds (i.start - 1) := by
  rintro ⟨j, hj, ht⟩
  have hp := hh.proper i hi
  simp only [Interval.Proper, Interval.mem_iff] at hp ht
  rcases hh.eq_or_lt hi hj with rfl | hlt | hlt <;> omega

/-- Intervals start where holding begins. -/
theorem exists_start_eq_iff {h : Hours} (hs : h.Separated) {t : Int} :
    (∃ i ∈ h, i.start = t) ↔ h.Holds t ∧ ¬ h.Holds (t - 1) := by
  constructor
  · rintro ⟨i, hi, rfl⟩
    exact ⟨⟨i, hi, Interval.start_mem (hs.proper i hi)⟩, hs.not_holds_before hi⟩
  · rintro ⟨⟨i, hi, ht⟩, hbefore⟩
    refine ⟨i, hi, ?_⟩
    by_contra hne
    refine hbefore ⟨i, hi, ?_⟩
    simp only [Interval.mem_iff] at *
    omega

/-- Seconds held without a gap are held by one interval. -/
theorem exists_mem_of_run {h : Hours} (hh : h.Separated) {s u : Int} (hsu : s ≤ u)
    (hrun : ∀ v, s ≤ v → v ≤ u → h.Holds v) : ∃ i ∈ h, s ∈ i ∧ u ∈ i := by
  obtain ⟨i, hi, hs⟩ := hrun s (Int.le_refl s) hsu
  refine ⟨i, hi, hs, ?_⟩
  by_contra hu
  have hstop : s ≤ i.stop ∧ i.stop ≤ u := by
    simp only [Interval.mem_iff] at hs hu
    omega
  exact hh.not_holds_stop hi (hrun i.stop hstop.1 hstop.2)

/-- Past its end, the first interval no longer matters. -/
theorem holds_tail_iff {i : Interval} {h : Hours} (hh : Separated (i :: h)) {t : Int} :
    h.Holds t ↔ i.stop < t ∧ Holds (i :: h) t := by
  obtain ⟨-, ha, -⟩ := separated_cons.1 hh
  constructor
  · rintro ⟨j, hj, ht⟩
    refine ⟨?_, holds_cons.2 (.inr ⟨j, hj, ht⟩)⟩
    have := ha j hj
    have := ht.1
    omega
  · rintro ⟨hlt, ht⟩
    rcases holds_cons.1 ht with ht | ht
    · exact absurd ht.2 (by omega)
    · exact ht

theorem start_mem_head {i : Interval} {h : Hours} (hh : Separated (i :: h)) : i.start ∈ i :=
  Interval.start_mem (separated_cons.1 hh).1

/-- If two separated lists hold the same seconds, the first intervals end at the same second. -/
theorem stop_le {i j : Interval} {g h : Hours} (hg : Separated (i :: g)) (hs : i.start = j.start)
    (ht : ∀ t, Holds (i :: g) t ↔ Holds (j :: h) t) : j.stop ≤ i.stop := by
  by_contra hlt
  have hmem : i.stop ∈ j := by
    have := hg.start_mem_head.2
    simp only [Interval.mem_iff]
    omega
  exact hg.not_holds_stop List.mem_cons_self ((ht _).2 (holds_cons.2 (.inl hmem)))

/-- A separated list is determined by the seconds it holds. -/
theorem ext : ∀ {g h : Hours}, g.Separated → h.Separated → (∀ t, g.Holds t ↔ h.Holds t) → g = h
  | [], [], _, _, _ => rfl
  | [], _ :: _, _, hh, ht => absurd ((ht _).2 (holds_cons.2 (.inl hh.start_mem_head))) (holds_nil _)
  | _ :: _, [], hg, _, ht => absurd ((ht _).1 (holds_cons.2 (.inl hg.start_mem_head))) (holds_nil _)
  | i :: g, j :: h, hg, hh, ht => by
    have hs : i.start = j.start := by
      have hij := hg.start_le ((ht _).2 (holds_cons.2 (.inl hh.start_mem_head)))
      have hji := hh.start_le ((ht _).1 (holds_cons.2 (.inl hg.start_mem_head)))
      omega
    have he : i.stop = j.stop := by
      have hij := hg.stop_le hs ht
      have hji := hh.stop_le hs.symm fun t => (ht t).symm
      omega
    have htail : g = h := by
      apply ext (separated_cons.1 hg).2.2 (separated_cons.1 hh).2.2
      intro t
      rw [hg.holds_tail_iff, hh.holds_tail_iff, he, ht]
    cases i
    cases j
    simp_all

end Separated

/-! ### Merging -/

theorem holds_insert {x : Interval} {h : Hours} {t : Int} :
    (insert x h).Holds t ↔ t ∈ x ∨ h.Holds t := by
  induction h generalizing x with
  | nil => simp [insert]
  | cons y ys ih =>
    simp only [insert]
    split_ifs with hxy hyx
    · simp only [holds_cons]
    · simp only [holds_cons, ih]
      tauto
    · rw [ih, Interval.mem_hull (by omega) (by omega), holds_cons, or_assoc]

theorem lt_start_insert {x : Interval} {h : Hours} {a : Int} (hx : a < x.start)
    (hh : ∀ y ∈ h, a < y.start) : ∀ z ∈ insert x h, a < z.start := by
  induction h generalizing x with
  | nil => simpa [insert] using hx
  | cons y ys ih =>
    have hy := hh y List.mem_cons_self
    have hys := fun z hz => hh z (List.mem_cons_of_mem y hz)
    simp only [insert]
    split_ifs with hxy hyx
    · simpa using ⟨hx, hy, hys⟩
    · simpa using ⟨hy, ih hx hys⟩
    · exact ih (Interval.lt_start_hull hx hy) hys

theorem separated_insert {x : Interval} {h : Hours} (hx : x.Proper) (hh : h.Separated) :
    (insert x h).Separated := by
  induction h generalizing x with
  | nil => exact separated_singleton hx
  | cons y ys ih =>
    obtain ⟨hy, ha, hys⟩ := separated_cons.1 hh
    simp only [insert]
    split_ifs with hxy hyx
    · refine separated_cons.2 ⟨hx, fun z hz => ?_, hh⟩
      rcases List.mem_cons.1 hz with rfl | hz
      · exact hxy
      · have := ha z hz
        simp only [Interval.Proper] at hy
        omega
    · exact separated_cons.2 ⟨hy, lt_start_insert hyx ha, ih hx hys⟩
    · exact ih (Interval.proper_hull hx) hys

/-- Merging keeps the seconds held. -/
theorem holds_merge {h : Hours} {t : Int} : h.merge.Holds t ↔ h.Holds t := by
  rw [merge, ← holds_filter_proper (h := h)]
  induction h.filter (·.Proper) with
  | nil => simp
  | cons x xs ih => rw [List.foldr_cons, holds_insert, ih, holds_cons]

theorem separated_foldr_insert {h : Hours} (hh : ∀ i ∈ h, i.Proper) :
    (h.foldr insert []).Separated := by
  induction h with
  | nil => exact separated_nil
  | cons x xs ih =>
    rw [List.forall_mem_cons] at hh
    exact separated_insert hh.1 (ih hh.2)

theorem separated_merge (h : Hours) : h.merge.Separated :=
  separated_foldr_insert fun _ hi => of_decide_eq_true (List.mem_filter.1 hi).2

/-- The merged form stays within the bounds of its intervals. -/
theorem merge_bounds {h : Hours} {a b : Int} (hh : ∀ i ∈ h, i.Proper → a ≤ i.start ∧ i.stop ≤ b) :
    ∀ p ∈ h.merge, a ≤ p.start ∧ p.stop ≤ b := by
  intro p hp
  have hproper := (separated_merge h).proper p hp
  obtain ⟨i, hi, hfirst⟩ := holds_merge.1 ⟨p, hp, Interval.start_mem hproper⟩
  obtain ⟨j, hj, hlast⟩ := holds_merge.1 ⟨p, hp, Interval.last_mem hproper⟩
  have hbi := hh i hi (Interval.proper_iff_exists_mem.2 ⟨_, hfirst⟩)
  have hbj := hh j hj (Interval.proper_iff_exists_mem.2 ⟨_, hlast⟩)
  simp only [Interval.mem_iff] at hfirst hlast
  omega

/-- Lists that hold the same seconds have the same merged form. -/
theorem merge_congr {g h : Hours} (ht : ∀ t, g.Holds t ↔ h.Holds t) : g.merge = h.merge :=
  (separated_merge g).ext (separated_merge h) fun t => by rw [holds_merge, holds_merge, ht]

/-- A separated list is its own merged form. -/
theorem Separated.merge_eq {h : Hours} (hh : h.Separated) : h.merge = h :=
  (separated_merge h).ext hh fun _ => holds_merge

end Hours

end OpeningHours
