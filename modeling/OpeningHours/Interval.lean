/-!
Half-open spans of whole seconds on an unbounded timeline. A span whose end does not lie after its
start holds nothing; such spans occur in unchecked data and are dropped wherever coverage counts.
The difference `diff` is exact; the bounding span `hull` is exact only for spans that overlap or touch.
-/

namespace OpeningHours

/-- The seconds from `start` up to, and not including, `stop`. -/
structure Interval where
  start : Int
  stop : Int
deriving DecidableEq, Repr, Inhabited

namespace Interval

instance : Membership Int Interval := ⟨fun i t => i.start ≤ t ∧ t < i.stop⟩

theorem mem_iff {i : Interval} {t : Int} : t ∈ i ↔ i.start ≤ t ∧ t < i.stop := Iff.rfl

instance (t : Int) (i : Interval) : Decidable (t ∈ i) := inferInstanceAs (Decidable (_ ∧ _))

/-- Holds at least one second. -/
def Proper (i : Interval) : Prop := i.start < i.stop

instance (i : Interval) : Decidable i.Proper := inferInstanceAs (Decidable (_ < _))

/-- The span that stands for "nothing". -/
def nothing : Interval := ⟨0, 0⟩

/-- The number of seconds held. -/
def duration (i : Interval) : Int := max 0 (i.stop - i.start)

/-- Both ends moved by `k` seconds. -/
def shift (i : Interval) (k : Int) : Interval := ⟨i.start + k, i.stop + k⟩

/-- The least span that holds both; a span without seconds does not stretch the other one. -/
def hull (i j : Interval) : Interval :=
  if ¬ i.Proper then j
  else if ¬ j.Proper then i
  else ⟨min i.start j.start, max i.stop j.stop⟩

/-- The common part, or `nothing`. -/
def inter (i j : Interval) : Interval :=
  let common : Interval := ⟨max i.start j.start, min i.stop j.stop⟩
  if common.Proper then common else nothing

/-- What is left of `i` before and after `j`. -/
def diff (i j : Interval) : List Interval :=
  [⟨i.start, min i.stop j.start⟩, ⟨max i.start j.stop, i.stop⟩].filter (·.Proper)

theorem proper_iff_exists_mem {i : Interval} : i.Proper ↔ ∃ t, t ∈ i :=
  ⟨fun h => ⟨i.start, Int.le_refl _, h⟩, fun ⟨_, h⟩ => Int.lt_of_le_of_lt h.1 h.2⟩

@[simp] theorem mem_shift {i : Interval} {k t : Int} : t ∈ i.shift k ↔ t - k ∈ i := by
  simp only [mem_iff, shift]; omega

@[simp] theorem proper_shift {i : Interval} {k : Int} : (i.shift k).Proper ↔ i.Proper := by
  simp only [Proper, shift]; omega

@[simp] theorem mem_inter {i j : Interval} {t : Int} : t ∈ i.inter j ↔ t ∈ i ∧ t ∈ j := by
  simp only [inter]
  split <;> simp_all only [Proper, mem_iff, nothing] <;> omega

theorem exists_mem_diff {i j : Interval} {t : Int} : (∃ p ∈ i.diff j, t ∈ p) ↔ t ∈ i ∧ t ∉ j := by
  simp only [diff, List.mem_filter, List.mem_cons, List.not_mem_nil, or_false, decide_eq_true_eq]
  constructor
  · rintro ⟨p, ⟨rfl | rfl, -⟩, hp⟩ <;> simp only [mem_iff] at hp ⊢ <;> omega
  · rintro ⟨hi, hj⟩
    by_cases h : t < j.start
    · refine ⟨_, ⟨.inl rfl, ?_⟩, ?_⟩ <;> simp only [Proper, mem_iff] at * <;> omega
    · refine ⟨_, ⟨.inr rfl, ?_⟩, ?_⟩ <;> simp only [Proper, mem_iff] at * <;> omega

end Interval

end OpeningHours
