import OpeningHours.Proofs.Hours.Moments

/-!
A walk from one closing to the next. Between two closings that are a week apart, canonical hours are open
just as a separated list holds (`weekFrom`), and the walk goes through this list one interval at a time. The
list is as long in total as the hours, and it has one interval for every opening: the walk is back after
as many steps, and not before.
-/

namespace OpeningHours

namespace Hours

/-! ### A week from a given second -/

/-- The openings from second `c` on, for a week. -/
def weekFrom (h : Hours) (c : Int) : Hours := ((h.shift (-c)).flat).shift c

theorem separated_weekFrom (h : Hours) (c : Int) : (h.weekFrom c).Separated := (separated_flat _).shift c

theorem weekFrom_bounds {h : Hours} {c : Int} :
    ∀ i ∈ h.weekFrom c, c ≤ i.start ∧ i.stop ≤ c + week := by
  intro i hi
  obtain ⟨j, hj, rfl⟩ := List.mem_map.1 hi
  have hin := inside_flat _ j hj
  simp only [Interval.shift]
  omega

theorem holds_weekFrom {h : Hours} {c t : Int} (hlo : c ≤ t) (hhi : t < c + week) :
    (h.weekFrom c).Holds t ↔ h.Covers t := by
  have hmod : (t - c) % week = t - c := Int.emod_eq_of_lt (by omega) (by omega)
  have hin := (inside_flat (h.shift (-c))).covers_iff_holds (t := t - c)
  rw [hmod] at hin
  rw [weekFrom, holds_shift, ← hin, covers_flat, covers_shift, show t - c - -c = t by omega]

theorem total_weekFrom {h : Hours} (hc : h.Canonical) (c : Int) : (h.weekFrom c).total = h.total := by
  have hcount : countWeek (h.weekFrom c).Holds c = countWeek h.Covers c :=
    countWeek_congr fun _ hlo hhi => holds_weekFrom hlo hhi
  calc (h.weekFrom c).total
      = countWeek (h.weekFrom c).Holds c := (separated_weekFrom h c).total_eq_card weekFrom_bounds
    _ = h.total := by rw [hcount, (weekly_covers h).countWeek_eq, hc.total_eq_countWeek]

/-- The number of openings: an opening that the seam cuts counts once. -/
def openingCount (h : Hours) : ℕ := h.length - if h.MeetsAtSeam then 1 else 0

/-- A week that begins between two openings cuts none of them. -/
theorem length_weekFrom {h : Hours} (hc : h.Canonical) {c : Int} (hclosed : ¬ h.Covers c) :
    (h.weekFrom c).length = h.openingCount := by
  have hfull : ¬ h.hasFullWeek = true := fun hfull => hclosed (covers_of_hasFullWeek hfull c)
  have hlength : (h.weekFrom c).length = countWeek h.OpensAt c := by
    apply (separated_weekFrom h c).length_eq_card
    intro t
    rw [(separated_weekFrom h c).exists_start_eq_iff, Finset.mem_filter, mem_seconds, OpensAt]
    constructor
    · rintro ⟨ht, hbefore⟩
      obtain ⟨i, hi, hti⟩ := ht
      have hb := weekFrom_bounds i hi
      have hwin : c ≤ t ∧ t < c + week := ⟨Int.le_trans hb.1 hti.1, Int.lt_of_lt_of_le hti.2 hb.2⟩
      have hcov := (holds_weekFrom hwin.1 hwin.2).1 ⟨i, hi, hti⟩
      have hct : c ≠ t := fun heq => hclosed (heq ▸ hcov)
      exact ⟨hwin, hcov, (not_congr (holds_weekFrom (by omega) (by omega))).1 hbefore⟩
    · rintro ⟨hwin, hcov, hbefore⟩
      have hct : c ≠ t := fun heq => hclosed (heq ▸ hcov)
      exact ⟨(holds_weekFrom hwin.1 hwin.2).2 hcov,
        (not_congr (holds_weekFrom (by omega) (by omega))).2 hbefore⟩
  rw [hlength, (weekly_opensAt h).countWeek_eq, openingCount, hc.length_eq_countWeek hfull,
    Nat.add_sub_cancel]

/-! ### From one closing to the next -/

/-- The opening `i` is the first one from second `c` on. -/
structure FirstFrom (h : Hours) (c : Int) (i : Interval) : Prop where
  proper : i.Proper
  le : c ≤ i.start
  closed_before : ∀ t, c ≤ t → t < i.start → ¬ h.Covers t
  covers : ∀ t ∈ i, h.Covers t
  closed_after : ¬ h.Covers i.stop

theorem FirstFrom.unique {h : Hours} {c : Int} {i j : Interval} (hi : h.FirstFrom c i)
    (hj : h.FirstFrom c j) : i = j := by
  have hstart : ∀ {i j : Interval}, h.FirstFrom c i → h.FirstFrom c j → i.start ≤ j.start := by
    intro i j hi hj
    by_contra hlt
    exact hi.closed_before j.start hj.le (by omega) (hj.covers _ (Interval.start_mem hj.proper))
  have hs : i.start = j.start := Int.le_antisymm (hstart hi hj) (hstart hj hi)
  have hstop : ∀ {i j : Interval}, h.FirstFrom c i → h.FirstFrom c j → i.start = j.start →
      i.stop ≤ j.stop := by
    intro i j hi hj hs
    by_contra hlt
    have hp := hj.proper
    simp only [Interval.Proper] at hp
    exact hj.closed_after (hi.covers _ ⟨by omega, by omega⟩)
  have he : i.stop = j.stop := Int.le_antisymm (hstop hi hj hs) (hstop hj hi hs.symm)
  cases i
  cases j
  simp_all

/-- A walk goes forward. -/
theorem walk_lt_iff {h : Hours} {o e : ℕ → Int} (hwalk : ∀ n, h.FirstFrom (e n) ⟨o (n + 1), e (n + 1)⟩)
    {m n : ℕ} : e m < e n ↔ m < n := by
  have hmono : StrictMono e := strictMono_nat_of_lt_succ fun n => (hwalk n).le.trans_lt (hwalk n).proper
  exact hmono.lt_iff_lt

/-- From a closed second on, the next opening and its closing are found. -/
theorem Canonical.exists_firstFrom {h : Hours} (hc : h.Canonical) (hopen : ∃ t, h.Covers t) {c : Int}
    (hclosed : ¬ h.Covers c) : ∃ i : Interval, h.nextOpen? c = some i.start ∧
      h.nextClose? i.start = some i.stop ∧ c < i.start ∧ h.FirstFrom c i := by
  obtain ⟨o, ho⟩ := (weekly_covers h).exists_isLeast hopen c
  obtain ⟨e, he, hrun⟩ := exists_isLeast_closesAt ho.1.2 ⟨c, hclosed⟩
  refine ⟨⟨o, e⟩, hc.nextOpen?_of_isLeast hclosed ho, hc.nextClose?_of_isLeast he, ho.1.1, ?_⟩
  refine ⟨he.1.1, Int.le_of_lt ho.1.1, fun t hct hto ht => ?_, fun t ht => hrun t ht.1 ht.2, he.1.2.2⟩
  have hne : c ≠ t := fun heq => hclosed (heq ▸ ht)
  have hle := ho.2 ⟨show c < t by omega, ht⟩
  dsimp only at hto
  omega

/-- A closing of hours that are open at some time is followed by an endless walk. -/
theorem Canonical.exists_walk {h : Hours} (hc : h.Canonical) (hopen : ∃ t, h.Covers t) {c : Int}
    (hclosed : ¬ h.Covers c) : ∃ e : ℕ → Int, ∃ o : ℕ → Int, e 0 = c ∧ ∀ n,
      h.nextOpen? (e n) = some (o (n + 1)) ∧ h.nextClose? (o (n + 1)) = some (e (n + 1)) ∧
        e n < o (n + 1) ∧ h.FirstFrom (e n) ⟨o (n + 1), e (n + 1)⟩ := by
  choose next hopens hcloses hlt hfirst using
    fun c : {c // ¬ h.Covers c} => hc.exists_firstFrom hopen c.property
  let e : ℕ → {c // ¬ h.Covers c} :=
    fun n => (fun c => ⟨(next c).stop, (hfirst c).closed_after⟩)^[n] ⟨c, hclosed⟩
  have hnext : ∀ n, (e (n + 1)).val = (next (e n)).stop := fun n =>
    congrArg Subtype.val (Function.iterate_succ_apply' _ n _)
  refine ⟨fun n => (e n).val, fun n => (next (e (n - 1))).start, rfl, fun n => ?_⟩
  simp only [Nat.add_sub_cancel, hnext]
  exact ⟨hopens _, hcloses _, hlt _, hfirst _⟩

/-- A separated list that holds what is open up to a closing is gone through in order. -/
theorem eq_map_range {h v : Hours} (hs : v.Separated) {o e : ℕ → Int} {z : Int}
    (hb : ∀ i ∈ v, e 0 ≤ i.start ∧ i.stop ≤ z) (hv : ∀ t, e 0 ≤ t → t < z → (v.Holds t ↔ h.Covers t))
    (hz : ¬ h.Covers z) (hwalk : ∀ n, h.FirstFrom (e n) ⟨o (n + 1), e (n + 1)⟩) :
    v = (List.range v.length).map fun n => ⟨o (n + 1), e (n + 1)⟩ := by
  induction v generalizing o e with
  | nil => rfl
  | cons i v ih =>
    obtain ⟨hi, hlt, hrest⟩ := separated_cons.1 hs
    obtain ⟨hib, hvb⟩ := List.forall_mem_cons.1 hb
    have hfirst : h.FirstFrom (e 0) i := by
      refine ⟨hi, hib.1, fun t hlo hhi ht => ?_, fun t ht => ?_, ?_⟩
      · have hle := hs.start_le ((hv t hlo (by simp only [Interval.Proper] at hi; omega)).2 ht)
        omega
      · have hwin : e 0 ≤ t ∧ t < z := ⟨Int.le_trans hib.1 ht.1, Int.lt_of_lt_of_le ht.2 hib.2⟩
        exact (hv t hwin.1 hwin.2).1 (holds_cons.2 (.inl ht))
      · rcases eq_or_lt_of_le hib.2 with heq | hstop
        · rwa [heq]
        · refine (not_congr (hv _ ?_ hstop)).1 (hs.not_holds_stop List.mem_cons_self)
          simp only [Interval.Proper] at hi
          omega
    have heq : i = ⟨o 1, e 1⟩ := hfirst.unique (hwalk 0)
    have hstop : i.stop = e 1 := congrArg Interval.stop heq
    have htail := ih hrest (o := fun n => o (n + 1)) (e := fun n => e (n + 1)) ?_ ?_ fun n => hwalk (n + 1)
    · rw [List.length_cons, List.range_succ_eq_map, List.map_cons, List.map_map, ← heq]
      exact congrArg (i :: ·) htail
    · intro j hj
      have hij := hlt j hj
      exact ⟨show e 1 ≤ j.start by omega, (hvb j hj).2⟩
    · intro t hlo hhi
      have hit : i.stop ≤ t := hstop.le.trans hlo
      simp only [Interval.Proper] at hi
      rw [← hv t (by omega) hhi, holds_cons, or_iff_right fun ht => ?_]
      exact absurd ht.2 (by omega)

/-- The openings that are gone through in a week are those of the week. -/
theorem Canonical.weekFrom_eq {h : Hours} (hc : h.Canonical) {c : Int} (hclosed : ¬ h.Covers c)
    {o e : ℕ → Int} (he : e 0 = c) (hwalk : ∀ n, h.FirstFrom (e n) ⟨o (n + 1), e (n + 1)⟩) :
    h.weekFrom c = (List.range h.openingCount).map fun n => ⟨o (n + 1), e (n + 1)⟩ := by
  subst he
  have hnext : ¬ h.Covers (e 0 + week) := fun ht => hclosed ((covers_add_week 1).1 (by simpa using ht))
  rw [← length_weekFrom hc hclosed]
  exact eq_map_range (separated_weekFrom h _) weekFrom_bounds (fun _ => holds_weekFrom) hnext hwalk

/-- After as many steps as there are openings, a walk is a week further. -/
theorem Canonical.walk_openingCount {h : Hours} (hc : h.Canonical) {c : Int} (hcloses : h.ClosesAt c)
    {o e : ℕ → Int} (he : e 0 = c) (hwalk : ∀ n, h.FirstFrom (e n) ⟨o (n + 1), e (n + 1)⟩) :
    e h.openingCount = c + week := by
  have hlist := hc.weekFrom_eq hcloses.2 he hwalk
  have hmem : ∀ {i : Interval}, i ∈ h.weekFrom c ↔
      ∃ n < h.openingCount, (⟨o (n + 1), e (n + 1)⟩ : Interval) = i := by
    intro i
    simp only [hlist, List.mem_map, List.mem_range]
  -- the last second before the closing a week later is held by some opening of the walk
  have hlast : h.Covers (c + week - 1) := by
    rw [show c + week - 1 = c - 1 + 1 * week by omega]
    exact (covers_add_week 1).2 hcloses.1
  obtain ⟨i, hi, hti⟩ := (holds_weekFrom (c := c) (by simp only [week]; omega) (by omega)).2 hlast
  obtain ⟨n, hn, rfl⟩ := hmem.1 hi
  have hstop : c + week ≤ e (n + 1) := Int.le_of_sub_one_lt hti.2
  have hend : e h.openingCount ≤ c + week := by
    have hcount : h.openingCount - 1 + 1 = h.openingCount := by omega
    have hb := weekFrom_bounds _ (hmem.2 ⟨h.openingCount - 1, by omega, rfl⟩)
    rw [hcount] at hb
    exact hb.2
  refine Int.le_antisymm hend (hstop.trans (not_lt.1 fun hlt => ?_))
  exact absurd ((walk_lt_iff hwalk).1 hlt) (by omega)

end Hours

/-! ### A walk in words -/

namespace Stored

open Hours

/-- If the Monday before a moment fits a word, so do those before later moments that fit. -/
theorem fits_monday {t u : Int} (htu : t ≤ u) (ht : Fits (t - t % week)) (hu : Fits u) : Fits (u - u % week) := by
  simp only [Fits, week] at *
  omega

theorem toInt_sub_one {c : Int32} (hweek : Fits (c.toInt - c.toInt % week)) : (c - 1).toInt = c.toInt - 1 := by
  have hc := c.toInt_lt
  rw [Int32.toInt_sub]
  apply Int.bmod_eq_of_le <;> simp only [Fits, week, Int32.reduceToInt] at * <;> omega

/-- A step of the walk is told in words if it ends at a word. -/
theorem step_eq {h : Hours} {c a o e : Int} (hca : c ≤ a) (hweek : Fits (c - c % week)) (hao : a < o) (hoe : o < e)
    (hfits : Fits e) (hopens : h.normalize.nextOpen? a = some o) (hcloses : h.normalize.nextClose? o = some e) :
    nextOpen (ofHours h.normalize) (.ofInt a) = .ok (some (.ofInt o)) ∧
      nextClose (ofHours h.normalize) (.ofInt o) = .ok (some (.ofInt e)) := by
  have ha : Fits a := by
    simp only [Fits, week] at *
    omega
  have ho : Fits o := by
    simp only [Fits] at *
    omega
  constructor
  · rw [nextOpen_normalize (by rw [ha.toInt_ofInt]; exact fits_monday hca hweek ha), ha.toInt_ofInt, hopens]
    exact told_of_fits (by rintro _ ⟨⟩; exact ho)
  · rw [nextClose_normalize (by rw [ho.toInt_ofInt]; exact fits_monday (by omega) hweek ho), ho.toInt_ofInt, hcloses]
    exact told_of_fits (by rintro _ ⟨⟩; exact hfits)

end Stored

end OpeningHours
