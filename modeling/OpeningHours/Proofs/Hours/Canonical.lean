import Mathlib.Data.List.Chain
import OpeningHours.Proofs.Hours.Normal

/-!
Canonical hours. The conditions speak of the list alone: bounds, order, and how the first interval and the
last one meet across the end of the week. They hold of every normal form, and a list that meets them is its
own normal form, so canonical hours are exactly the fixed points of `normalize`.
-/

namespace OpeningHours.Hours

/-- The conditions on a list in normal form. -/
structure Canonical (h : Hours) : Prop where
  bounds : ∀ i ∈ h, 0 ≤ i.start ∧ i.start < week ∧ i.start < i.stop ∧ i.stop ≤ week + spill
  /-- each interval ends before the next one starts -/
  chain : h.IsChain (·.stop < ·.start)
  /-- only the last interval may end after the week -/
  onlyLast : ∀ i ∈ h.dropLast, i.stop ≤ week
  /-- and then it ends before the first one starts a week later -/
  wrap : ∀ first ∈ h.head?, ∀ last ∈ h.getLast?, week < last.stop → last.stop - week < first.start
  /-- an opening cut at the seam is too long to be joined -/
  seam : h.MeetsAtSeam → ∀ first ∈ h.head?, spill < first.stop

theorem separated_of_isChain {h : Hours} (hp : ∀ i ∈ h, i.Proper)
    (hc : h.IsChain (·.stop < ·.start)) : h.Separated := by
  induction h with
  | nil => exact separated_nil
  | cons x xs ih =>
    rw [List.forall_mem_cons] at hp
    rw [List.isChain_cons] at hc
    have hxs := ih hp.2 hc.2
    refine separated_cons.2 ⟨hp.1, fun z hz => ?_, hxs⟩
    rcases xs with _ | ⟨y, ys⟩
    · cases hz
    have hxy : x.stop < y.start := hc.1 y rfl
    rcases List.mem_cons.1 hz with rfl | hzy
    · exact hxy
    · have hy : y.start < y.stop := hp.2 y List.mem_cons_self
      have hyz := (separated_cons.1 hxs).2.1 z hzy
      omega

theorem separated_concat {h : Hours} {i : Interval} :
    Separated (h ++ [i]) ↔ h.Separated ∧ i.Proper ∧ ∀ j ∈ h, j.stop < i.start := by
  constructor
  · intro hs
    refine ⟨hs.sublist (List.sublist_append_left _ _), hs.proper i (by simp), fun j hj => ?_⟩
    exact (List.pairwise_append.1 hs.apart).2.2 j hj i (by simp)
  · rintro ⟨hh, hi, ha⟩
    refine ⟨fun j hj => ?_, List.pairwise_append.2 ⟨hh.apart, by simp, by simpa using ha⟩⟩
    rcases List.mem_append.1 hj with hj | hj
    · exact hh.proper j hj
    · rwa [List.mem_singleton.1 hj]

namespace Canonical

variable {h : Hours}

theorem proper (hc : h.Canonical) : ∀ i ∈ h, i.Proper := fun i hi => (hc.bounds i hi).2.2.1

theorem separated (hc : h.Canonical) : h.Separated := separated_of_isChain hc.proper hc.chain

/-- An interval that runs past the week ends before any starts a week later. -/
theorem wrap_lt (hc : h.Canonical) {i j : Interval} (hi : i ∈ h) (hj : j ∈ h) (hw : week < j.stop) :
    j.stop - week < i.start := by
  have hlast : j ∈ h.getLast? := by
    rcases List.eq_nil_or_concat h with rfl | ⟨init, last, rfl⟩
    · cases hj
    rw [List.concat_eq_append] at *
    rw [List.getLast?_concat]
    rcases List.mem_append.1 hj with hj | hj
    · have := hc.onlyLast j (by rwa [List.dropLast_concat])
      omega
    · rw [List.mem_singleton.1 hj]
      rfl
  rcases h with _ | ⟨first, rest⟩
  · cases hi
  have hfirst := hc.wrap first rfl j hlast hw
  rcases List.mem_cons.1 hi with rfl | hi
  · exact hfirst
  · have hlt := (separated_cons.1 hc.separated).2.1 i hi
    have hp := hc.proper first List.mem_cons_self
    simp only [Interval.Proper] at hp
    omega

/-- An interval that runs past the week can be cut at its end. -/
theorem separated_cut {init : Hours} {a e : Int} (hc : Canonical (init ++ [⟨a, e⟩])) (hw : week < e) :
    Separated (⟨0, e - week⟩ :: (init ++ [⟨a, week⟩])) := by
  have hlast : 0 ≤ a ∧ a < week ∧ a < e ∧ e ≤ week + spill := hc.bounds ⟨a, e⟩ (by simp)
  have hsep := separated_concat.1 hc.separated
  have hfirst : ∀ i ∈ init ++ [⟨a, e⟩], e - week < i.start := fun i hi =>
    hc.wrap_lt (j := ⟨a, e⟩) hi (by simp) hw
  simp only [List.forall_mem_append, List.forall_mem_singleton] at hfirst
  refine separated_cons.2 ⟨show 0 < e - week by omega, ?_, ?_⟩
  · simpa only [List.forall_mem_append, List.forall_mem_singleton] using hfirst
  · exact separated_concat.2 ⟨hsep.1, show a < week by omega, hsep.2.2⟩

/-- Canonical hours come from a list inside the week by joining its ends. -/
theorem exists_joinSeam_eq (hc : h.Canonical) :
    ∃ f : Hours, f.Separated ∧ f.Inside ∧ joinSeam f = h := by
  rcases List.eq_nil_or_concat h with rfl | ⟨init, ⟨a, e⟩, rfl⟩
  · exact ⟨[], separated_nil, by simp [Inside], rfl⟩
  rw [List.concat_eq_append] at *
  have hinit : ∀ i ∈ init, 0 ≤ i.start ∧ i.stop ≤ week := fun i hi =>
    ⟨(hc.bounds i (by simp [hi])).1, hc.onlyLast i (by simpa using hi)⟩
  have hlast : 0 ≤ a ∧ a < week ∧ a < e ∧ e ≤ week + spill := hc.bounds ⟨a, e⟩ (by simp)
  by_cases hw : e ≤ week
  · refine ⟨_, hc.separated, ?_, ?_⟩
    · simpa only [Inside, List.forall_mem_append, List.forall_mem_singleton] using ⟨hinit, hlast.1, hw⟩
    · rcases joinSeam_cases (init ++ [⟨a, e⟩]) with ⟨he, -⟩ | ⟨b, mid, a', he, hb, -⟩
      · exact he
      · have hlong := hc.seam (meetsAtSeam_iff.2 ⟨b, mid, a', he⟩) ⟨0, b⟩ (by rw [he]; rfl)
        exact absurd hb (Int.not_le.2 hlong)
  · have hb : e - week ≤ spill := by omega
    refine ⟨_, separated_cut hc (Int.not_le.1 hw), ?_, by simp [joinSeam, hb]⟩
    simp only [Inside, List.forall_mem_cons, List.forall_mem_append]
    refine ⟨?_, hinit, by omega, by simp⟩
    simp only [week, spill] at *
    omega

theorem normalize_eq (hc : h.Canonical) : h.normalize = h := by
  obtain ⟨f, hs, hi, he⟩ := hc.exists_joinSeam_eq
  have hflat : h.flat = f := eq_flat hs hi fun t => by rw [← he, covers_joinSeam hs hi]
  rw [Hours.normalize_eq, hflat, he]

end Canonical

/-- Inside the week only the seam condition is left to check. -/
theorem Inside.canonical {f : Hours} (hi : f.Inside) (hs : f.Separated)
    (hseam : f.MeetsAtSeam → ∀ first ∈ f.head?, spill < first.stop) : f.Canonical where
  bounds := by
    intro i hm
    have hin := hi i hm
    have hp := hs.proper i hm
    simp only [Interval.Proper, week, spill] at *
    omega
  chain := hs.apart.isChain
  onlyLast := fun i hm => (hi i (List.dropLast_subset f hm)).2
  wrap := by
    intro first _ last hl hw
    have := hi last (List.mem_of_getLast? hl)
    omega
  seam := hseam

/-- A last interval may run past the end of the week, up to `spill` and short of the first one. -/
theorem canonical_concat_wrap {mid : Hours} {a b : Int} (hs : Separated (mid ++ [⟨a, b + week⟩]))
    (hi : mid.Inside) (ha : a < week) (h0 : 0 < b) (hb : b ≤ spill)
    (hstart : ∀ i ∈ mid ++ [⟨a, b + week⟩], b < i.start) : (mid ++ [⟨a, b + week⟩] : Hours).Canonical where
  bounds := by
    intro i hm
    have hp := hs.proper i hm
    have hbi := hstart i hm
    simp only [Interval.Proper] at hp
    rcases List.mem_append.1 hm with hm | hm
    · have hin := hi i hm
      simp only [week, spill] at *
      omega
    · obtain rfl := List.mem_singleton.1 hm
      simp only [week, spill] at *
      omega
  chain := hs.apart.isChain
  onlyLast := by simpa using fun i hm => (hi i hm).2
  wrap := by
    intro first hf last hl _
    rw [List.getLast?_concat] at hl
    obtain rfl := Option.some.inj hl
    have := hstart first (List.mem_of_head? hf)
    dsimp only
    omega
  seam := by
    rintro ⟨-, -, hw⟩
    rw [List.getLast?_concat] at hw
    have : b + week = week := Option.some.inj hw
    omega

/-- Joining the ends of a list inside the week makes it canonical. -/
theorem canonical_joinSeam {f : Hours} (hs : f.Separated) (hi : f.Inside) : (joinSeam f).Canonical := by
  rcases joinSeam_cases f with ⟨he, hseam⟩ | ⟨b, mid, a, rfl, hb, he⟩
  · rw [he]
    exact hi.canonical hs hseam
  · obtain ⟨h0, hfirst, hrest⟩ := separated_cons.1 hs
    obtain ⟨hmid, ha, hlast⟩ := separated_concat.1 hrest
    simp only [Inside, List.forall_mem_cons, List.forall_mem_append] at hi hfirst
    simp only [Interval.Proper] at h0 ha
    have hjoined : Separated (mid ++ [⟨a, b + week⟩]) :=
      separated_concat.2 ⟨hmid, show a < b + week by omega, hlast⟩
    have hstart : ∀ i ∈ mid ++ [⟨a, b + week⟩], b < i.start := by
      simpa only [List.forall_mem_append, List.forall_mem_singleton] using ⟨hfirst.1, hfirst.2.1⟩
    rw [he]
    exact canonical_concat_wrap hjoined hi.2.1 ha h0 hb hstart

theorem canonical_normalize (h : Hours) : h.normalize.Canonical := by
  rw [normalize_eq]
  exact canonical_joinSeam (separated_flat h) (inside_flat h)

/-- Canonical hours are determined by what they cover. -/
theorem Canonical.ext {g h : Hours} (hg : g.Canonical) (hh : h.Canonical)
    (ht : ∀ t, g.Covers t ↔ h.Covers t) : g = h := by
  rw [← hg.normalize_eq, ← hh.normalize_eq, normalize_congr ht]

/-- Canonical lists are those that normalizing returns unchanged. -/
theorem canonical_iff_normalize_eq {h : Hours} : h.Canonical ↔ h.normalize = h :=
  ⟨Canonical.normalize_eq, fun he => he ▸ canonical_normalize h⟩

end OpeningHours.Hours
