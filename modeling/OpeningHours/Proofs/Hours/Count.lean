import Mathlib.Data.Finset.Card
import OpeningHours.Proofs.Hours.Days

/-!
Counting seconds. The intervals of a separated list are together as long as the number of seconds that it
holds, and how often something happens in a week does not depend on where the week is taken to begin. So
the total of canonical hours is the number of open seconds of the week, which is the whole week only for
hours that never close, and their intervals are as many as the moments at which openings begin, with one
more for an opening that the seam cuts.
-/

namespace OpeningHours

namespace Interval

/-- Covering, decided on the distance from the start. -/
theorem covers_iff_emod_lt {i : Interval} {t : Int} : i.Covers t ↔ (t - i.start) % week < i.duration := by
  constructor
  · rintro ⟨k, hk⟩
    simp only [mem_iff, duration, week] at *
    omega
  · intro ht
    refine ⟨-((t - i.start) / week), ?_⟩
    simp only [mem_iff, duration, week] at *
    omega

instance (i : Interval) (t : Int) : Decidable (i.Covers t) := decidable_of_iff' _ covers_iff_emod_lt

end Interval

namespace Hours

instance (h : Hours) (t : Int) : Decidable (h.Covers t) :=
  inferInstanceAs (Decidable (∃ i ∈ h, i.Covers t))

/-! ### A week from anywhere -/

/-- What holds at a moment holds at the same moment of every week. -/
def Weekly (p : Int → Prop) : Prop := ∀ t, p (t % week) ↔ p t

theorem Weekly.congr {p : Int → Prop} (hp : Weekly p) {t u : Int} (htu : t % week = u % week) :
    p t ↔ p u := by
  rw [← hp t, htu, hp u]

theorem weekly_covers (h : Hours) : Weekly h.Covers := fun _ => covers_emod

/-- An opening begins at second `t`. -/
def OpensAt (h : Hours) (t : Int) : Prop := h.Covers t ∧ ¬ h.Covers (t - 1)

/-- An opening ends at second `t`. -/
def ClosesAt (h : Hours) (t : Int) : Prop := h.Covers (t - 1) ∧ ¬ h.Covers t

instance (h : Hours) (t : Int) : Decidable (h.OpensAt t) := inferInstanceAs (Decidable (_ ∧ _))

instance (h : Hours) (t : Int) : Decidable (h.ClosesAt t) := inferInstanceAs (Decidable (_ ∧ _))

theorem covers_emod_sub_one {h : Hours} {t : Int} : h.Covers (t % week - 1) ↔ h.Covers (t - 1) :=
  covers_congr_emod (by simp only [week]; omega)

theorem weekly_opensAt (h : Hours) : Weekly h.OpensAt := fun _ =>
  and_congr covers_emod (not_congr covers_emod_sub_one)

theorem weekly_closesAt (h : Hours) : Weekly h.ClosesAt := fun _ =>
  and_congr covers_emod_sub_one (not_congr covers_emod)

/-- The seconds from `a` until `b`. -/
def seconds (a b : Int) : Finset Int := (Finset.range (b - a).toNat).image fun n : ℕ => a + n

theorem mem_seconds {a b t : Int} : t ∈ seconds a b ↔ a ≤ t ∧ t < b := by
  simp only [seconds, Finset.mem_image, Finset.mem_range]
  constructor
  · rintro ⟨n, hn, rfl⟩
    omega
  · intro ht
    exact ⟨(t - a).toNat, by omega, by omega⟩

theorem card_seconds {a b : Int} (hab : a ≤ b) : ((seconds a b).card : Int) = b - a := by
  have hinj : Function.Injective fun n : ℕ => a + (n : Int) := fun m n hmn => by
    simpa using hmn
  rw [seconds, Finset.card_image_of_injective _ hinj, Finset.card_range, Int.toNat_of_nonneg (by omega)]

/-- The seconds of the week from `c` on at which `p` holds. -/
def countWeek (p : Int → Prop) [DecidablePred p] (c : Int) : ℕ := ((seconds c (c + week)).filter p).card

theorem countWeek_congr {p q : Int → Prop} [DecidablePred p] [DecidablePred q] {c : Int}
    (hpq : ∀ t, c ≤ t → t < c + week → (p t ↔ q t)) : countWeek p c = countWeek q c := by
  refine congrArg Finset.card (Finset.filter_congr fun t ht => ?_)
  rw [mem_seconds] at ht
  exact hpq t ht.1 ht.2

/-- What happens every week happens equally often in each week, wherever it begins. -/
theorem Weekly.countWeek_eq {p : Int → Prop} [DecidablePred p] (hp : Weekly p) (c : Int) :
    countWeek p c = countWeek p 0 := by
  refine Finset.card_nbij' (· % week) (fun t => c + (t - c) % week) ?_ ?_ ?_ ?_
  · intro t ht
    simp only [Finset.coe_filter, mem_seconds, Set.mem_ofPred_eq] at *
    refine ⟨?_, (hp t).2 ht.2⟩
    simp only [week]
    omega
  · intro t ht
    simp only [Finset.coe_filter, mem_seconds, Set.mem_ofPred_eq] at *
    refine ⟨?_, (hp.congr ?_).1 ht.2⟩
    · simp only [week]
      omega
    · simp only [week]
      omega
  · intro t ht
    simp only [Finset.coe_filter, mem_seconds, Set.mem_ofPred_eq, week] at *
    omega
  · intro t ht
    simp only [Finset.coe_filter, mem_seconds, Set.mem_ofPred_eq, week] at *
    omega

/-! ### Separated lists -/

namespace Separated

variable {h : Hours}

/-- The intervals are together as long as the number of seconds held. -/
theorem total_eq_card (hs : h.Separated) {a b : Int} (hb : ∀ i ∈ h, a ≤ i.start ∧ i.stop ≤ b) :
    h.total = ((seconds a b).filter h.Holds).card := by
  induction h with
  | nil => simp [total]
  | cons i h ih =>
    rw [List.forall_mem_cons] at hb
    obtain ⟨hi, hlt, hh⟩ := separated_cons.1 hs
    have hsplit : (seconds a b).filter (Holds (i :: h)) =
        seconds i.start i.stop ∪ (seconds a b).filter (Holds h) := by
      ext t
      simp only [Finset.mem_filter, Finset.mem_union, mem_seconds, holds_cons, Interval.mem_iff,
        and_or_left]
      exact or_congr_left (and_iff_right_of_imp fun ht => ⟨by omega, by omega⟩)
    have hdisjoint : Disjoint (seconds i.start i.stop) ((seconds a b).filter (Holds h)) := by
      rw [Finset.disjoint_left]
      intro t ht hmem
      obtain ⟨j, hj, htj⟩ := (Finset.mem_filter.1 hmem).2
      have hij := hlt j hj
      rw [mem_seconds] at ht
      have := htj.1
      omega
    rw [total_eq_sum, List.map_cons, List.sum_cons, ← total_eq_sum, ih hh hb.2, hsplit,
      Finset.card_union_of_disjoint hdisjoint, Nat.cast_add, card_seconds (Int.le_of_lt hi),
      Interval.duration_of_proper hi]

/-- There are as many intervals as starts. -/
theorem length_eq_card (hs : h.Separated) {s : Finset Int} (hstart : ∀ t, (∃ i ∈ h, i.start = t) ↔ t ∈ s) :
    h.length = s.card := by
  have hnodup : (h.map (·.start)).Nodup := by
    refine List.pairwise_map.2 (hs.apart.imp_of_mem fun {i j} hi _ hij => ?_)
    have hp := hs.proper i hi
    simp only [Interval.Proper] at hp
    omega
  have hset : (h.map (·.start)).toFinset = s := by
    ext t
    rw [List.mem_toFinset, List.mem_map, hstart]
  rw [← hset, List.toFinset_card_of_nodup hnodup, List.length_map]

end Separated

/-! ### Canonical hours -/

theorem total_append (g h : Hours) : (g ++ h).total = g.total + h.total := by
  rw [total_eq_sum, total_eq_sum, total_eq_sum, List.map_append, List.sum_append]

/-- Joining at the seam keeps the total. -/
theorem total_joinSeam {h : Hours} (hs : h.Separated) : (joinSeam h).total = h.total := by
  rcases joinSeam_cases h with ⟨he, -⟩ | ⟨b, mid, a, rfl, -, he⟩
  · rw [he]
  · have hb := hs.proper ⟨0, b⟩ (by simp)
    have ha := hs.proper ⟨a, week⟩ (by simp)
    rw [he, total_append, ← List.cons_append, total_append]
    simp only [Interval.Proper, total, List.foldr_cons, List.foldr_nil, Interval.duration] at *
    omega

namespace Canonical

variable {h : Hours}

/-- The total is the number of seconds of the week that are covered. -/
theorem total_eq_countWeek (hc : h.Canonical) : h.total = countWeek h.Covers 0 := by
  obtain ⟨f, hs, hi, rfl⟩ := hc.exists_joinSeam_eq
  have hcount : countWeek f.Holds 0 = countWeek (joinSeam f).Covers 0 := by
    refine countWeek_congr fun t hlo hhi => ?_
    rw [covers_joinSeam hs hi, hi.covers_iff_holds, Int.emod_eq_of_lt hlo (by omega)]
  rw [total_joinSeam hs, ← hcount]
  exact hs.total_eq_card fun i hi' => by simpa using hi i hi'

theorem total_le (hc : h.Canonical) : h.total ≤ week := by
  have hweek : ((seconds 0 (0 + week)).card : Int) = week := card_seconds (by decide)
  have hpart := Finset.card_filter_le (seconds 0 (0 + week)) h.Covers
  rw [hc.total_eq_countWeek, countWeek]
  omega

/-- Only hours that never close are open for a whole week. -/
theorem week_le_total_iff (hc : h.Canonical) : week ≤ h.total ↔ ∀ t, h.Covers t := by
  have hweek : ((seconds 0 (0 + week)).card : Int) = week :=
    card_seconds (by decide)
  rw [hc.total_eq_countWeek, countWeek]
  constructor
  · intro hle t
    have hall : (seconds 0 (0 + week)).filter h.Covers = seconds 0 (0 + week) := by
      refine Finset.eq_of_subset_of_card_le (Finset.filter_subset _ _) ?_
      omega
    rw [Finset.filter_eq_self] at hall
    refine covers_emod.1 (hall (t % week) (mem_seconds.2 ?_))
    simp only [week]
    omega
  · intro hall
    rw [Finset.filter_true_of_mem fun t _ => hall t, hweek]

/-- There are as many intervals as moments of the week at which coverage begins, and one more if the seam
cuts an opening. -/
theorem length_eq_countWeek (hc : h.Canonical) (hfull : ¬ h.hasFullWeek = true) :
    h.length = countWeek h.OpensAt 0 + if h.MeetsAtSeam then 1 else 0 := by
  have hstart : ∀ t, (∃ i ∈ h, i.start = t) ↔
      (0 ≤ t ∧ t < 0 + week) ∧ h.Covers t ∧ (¬ h.Covers (t - 1) ∨ h.MeetsAtSeam ∧ t = 0) := by
    intro t
    constructor
    · rintro ⟨i, hi, rfl⟩
      have hb := hc.bounds i hi
      exact ⟨by omega, (hc.exists_start_eq_iff hfull hb.1 hb.2.1).1 ⟨i, hi, rfl⟩⟩
    · rintro ⟨ht, hcov⟩
      exact (hc.exists_start_eq_iff hfull ht.1 (by omega)).2 hcov
  by_cases hm : h.MeetsAtSeam
  · have hcov := (hc.meetsAtSeam_iff_covers hfull).1 hm
    rw [if_pos hm, countWeek, ← Finset.card_insert_of_notMem (a := 0)]
    · apply hc.separated.length_eq_card
      intro t
      rw [hstart, Finset.mem_insert, Finset.mem_filter, mem_seconds]
      by_cases ht : t = 0
      · subst ht
        simp [hm, hcov 0 (by decide) (by decide), week]
      · simp [ht, OpensAt]
    · simp [OpensAt, hcov (-1) (by decide) (by decide)]
  · rw [if_neg hm, Nat.add_zero, countWeek]
    apply hc.separated.length_eq_card
    intro t
    rw [hstart, Finset.mem_filter, mem_seconds]
    simp [hm, OpensAt]

end Canonical

/-- The total of the normal form is the number of seconds of the week that the hours cover, however often and
in whatever week they list them. It is a week at most, and a whole week just for hours that never close. -/
theorem total_counts_covered (h : Hours) :
    h.normalize.total = ((seconds 0 week).filter h.Covers).card ∧ h.normalize.total ≤ week ∧
      (h.normalize.total = week ↔ ∀ t, h.Covers t) := by
  have hc := canonical_normalize h
  have hcount : h.normalize.total = ((seconds 0 week).filter h.Covers).card := by
    rw [hc.total_eq_countWeek, countWeek_congr fun _ _ _ => covers_normalize, countWeek, Int.zero_add]
  have hle : h.normalize.total ≤ week := hc.total_le
  have hall : week ≤ h.normalize.total ↔ ∀ t, h.Covers t := by
    rw [hc.week_le_total_iff]
    exact forall_congr' fun _ => covers_normalize
  refine ⟨hcount, hle, ?_⟩
  rw [← hall]
  omega

/-- Sunday 22:00 to Monday 02:00, the last two hours of which are listed three times. -/
example : (Hours.normalize [⟨597600, 612000⟩, ⟨0, 7200⟩, ⟨week, 612000⟩]).total = 4 * 3600 := by decide

end Hours

end OpeningHours
