import OpeningHours.Json.Record
import OpeningHours.Proofs.Json.Value

/-!
Simple values, lists and records are read back as written, provided that integers fit the width they are
read with, that list items are read back, and that the names of a record's fields are declared and differ.
-/

namespace OpeningHours.Json.Value

@[simp] theorem toText?_ofText (s : String) : (ofText s).toText? = some s := by
  rw [ofText, toText?, CodePoint.text?_ofText, Option.map_some, String.ofList_toList]

theorem toIntBetween?_ofInt {low high k : Int} (hl : low ≤ k) (hh : k ≤ high) :
    (ofInt k).toIntBetween? low high = some k := by
  rw [ofInt, toIntBetween?, toInt?, Decimal.Numeral.toInt?_ofInt]
  simp [hl, hh]

theorem toUInt8?_ofInt {n : ℕ} (hn : n < 256) : (ofInt n).toUInt8? = some n := by
  rw [toUInt8?, toIntBetween?_ofInt (by omega) (by omega), Option.map_some, Int.toNat_natCast]

theorem toUInt64?_ofInt (u : UInt64) : (ofInt u.toNat).toUInt64? = some u.toNat := by
  have hu := u.toNat_lt
  rw [toUInt64?, toIntBetween?_ofInt (by omega) (by omega), Option.map_some, Int.toNat_natCast]

/-- What a list of results has, if all of them are there. -/
theorem mapM_map_eq_some {α β : Type} {write : α → β} {read : β → Option α} {xs : List α}
    (hx : ∀ x ∈ xs, read (write x) = some x) : (xs.map write).mapM read = some xs := by
  induction xs with
  | nil => rfl
  | cons x xs ih =>
    rw [List.forall_mem_cons] at hx
    rw [List.map_cons, List.mapM_cons, hx.1, ih hx.2]
    rfl

theorem toList?_ofList {α : Type} {write : α → Value} {read : Value → Option α} {xs : List α}
    (hx : ∀ x ∈ xs, read (write x) = some x) : (ofList write xs).toList? read = some xs :=
  mapM_map_eq_some hx

/-- A record has the fields it is written with. -/
theorem fields?_record {names : List String} {fields : Fields} (hn : (fields.map (·.1)).Nodup)
    (hd : ∀ f ∈ fields, f.1 ∈ names) : (record fields).fields? names = some fields := by
  have hnamed : named? (fields.map fun f => (CodePoint.ofText f.1.toList, f.2)) = some fields := by
    apply mapM_map_eq_some
    intro f _
    rw [CodePoint.text?_ofText, Option.map_some, String.ofList_toList]
  have hkept : fields.filter (fun m => m.1 ∈ names) = fields :=
    List.filter_eq_self.2 fun f hf => decide_eq_true (hd f hf)
  simp only [record, fields?, hnamed, hkept, hn, if_true, Option.bind_eq_bind, Option.bind_some]

namespace Fields

variable {α : Type} (v : Value) (fields : Fields) (name field : String) (default : α) (read : Value → Option α)

@[simp] theorem required?_cons : required? ((field, v) :: fields) name read =
    if name = field then read v else required? fields name read := by
  by_cases hn : name = field
  · simp [required?, hn]
  · have hne : (name == field) = false := beq_false_of_ne hn
    simp [required?, List.lookup_cons, hne, hn]

@[simp] theorem optional?_cons : optional? ((field, v) :: fields) name default read =
    if name = field then read v else optional? fields name default read := by
  by_cases hn : name = field
  · simp [optional?, hn]
  · have hne : (name == field) = false := beq_false_of_ne hn
    simp [optional?, List.lookup_cons, hne, hn]

end Fields

/-- What was written is loaded again. -/
theorem load_render {α : Type} {read : Value → Option α} {v : Value} {x : α} (hv : read v = some x) :
    load read v.render = .ok x := by
  rw [load, parse?_render, Option.bind_some, hv]

end OpeningHours.Json.Value
