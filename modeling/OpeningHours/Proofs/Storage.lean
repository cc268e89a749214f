import OpeningHours.Audience
import OpeningHours.Profile
import OpeningHours.Proofs.Schedule.Storage

/-!
Stored records other than schedules. Hours on their own, catalogs, audiences and profiles are read back as they
were written, hours in their own order and not in normal form. A set of chat kinds is stored as a number of
which only the four lowest bits are read, so a number with further bits is stored anew without them.
-/

namespace OpeningHours

open Json

theorem Hours.parse_render {h : Hours} (hf : ∀ i ∈ h, Fits i.start ∧ Fits i.stop) :
    Hours.parse h.render = .ok h :=
  Value.load_render (Hours.ofJson?_toJson hf)

/-! ### Catalogs -/

theorem Timezone.ofJson?_toJson (z : Timezone) : ofJson? z.toJson = some z := by
  have hfields : z.toJson.fields? ["id", "name", "utc_offset"] = some [("id", .ofText z.id),
      ("name", .ofText z.name), ("utc_offset", .ofInt z.utcOffset.toInt)] :=
    Value.fields?_record (by simp) (by simp)
  have hoffset : (Value.ofInt z.utcOffset.toInt).toInt32? = some z.utcOffset.toInt :=
    Value.toIntBetween?_ofInt z.utcOffset.le_toInt (by have := z.utcOffset.toInt_lt; omega)
  simp [ofJson?, hfields, hoffset]

theorem Catalog.parse_render (c : Catalog) : Catalog.parse c.render = .ok c :=
  Value.load_render (Value.toList?_ofList fun z _ => z.ofJson?_toJson)

/-! ### Audiences -/

/-- Only the four lowest bits of a number matter. -/
theorem ChatKinds.code_ofCode (n : ℕ) : (ofCode n).code = n % 16 := by
  have hbit : ∀ i, (n.testBit i).toNat = n / 2 ^ i % 2 := fun i => Nat.toNat_testBit n i
  simp only [ofCode, code, hbit]
  omega

namespace Selection

/-- A selection as it is stored, with a number for its kinds. -/
def record (n : ℕ) (users : List UInt64) : Value :=
  .record [("types", .ofInt n), ("list", .ofList (fun u => .ofInt u.toNat) users)]

theorem toJson_eq_record (s : Selection) : s.toJson = record s.kinds.code s.users := rfl

theorem user?_ofInt (u : UInt64) : user? (.ofInt u.toNat) = some u := by
  rw [user?, Value.toUInt64?_ofInt, Option.map_some, UInt64.ofNat_toNat]

theorem ofJson?_record {n : ℕ} (hn : n < 256) (users : List UInt64) :
    ofJson? (record n users) = some ⟨.ofCode n, users⟩ := by
  have hfields : (record n users).fields? ["types", "list"] = some [("types", .ofInt n),
      ("list", .ofList (fun u => .ofInt u.toNat) users)] :=
    Value.fields?_record (by simp) (by simp)
  have hkinds : kinds? (.ofInt n) = some (.ofCode n) := by
    rw [kinds?, Value.toUInt8?_ofInt hn, Option.map_some]
  have husers : (Value.ofList (fun u : UInt64 => .ofInt u.toNat) users).toList? user? = some users :=
    Value.toList?_ofList fun u _ => user?_ofInt u
  simp [ofJson?, hfields, hkinds, husers]

theorem ofJson?_toJson (s : Selection) : ofJson? s.toJson = some s := by
  have hcode := s.kinds.code_lt
  rw [toJson_eq_record, ofJson?_record (by omega), ChatKinds.ofCode_code]

end Selection

namespace Audience

/-- An audience as it is stored, with its two selections. -/
def record (included excluded : Value) (all : Bool) : Value :=
  .record [("included", included), ("excluded", excluded), ("all_but_excluded", .bool all)]

theorem toJson_eq_record (a : Audience) :
    a.toJson = record a.included.toJson a.excluded.toJson a.allButExcluded := rfl

theorem ofJson?_record {v w : Value} {s t : Selection} (hs : Selection.ofJson? v = some s)
    (ht : Selection.ofJson? w = some t) (all : Bool) : ofJson? (record v w all) = some ⟨s, t, all⟩ := by
  have hfields : (record v w all).fields? ["included", "excluded", "all_but_excluded"] =
      some [("included", v), ("excluded", w), ("all_but_excluded", .bool all)] :=
    Value.fields?_record (by simp) (by simp)
  simp [ofJson?, hfields, hs, ht, Value.toBool?]

theorem parse_render (a : Audience) : Audience.parse a.render = .ok a := by
  rw [render, toJson_eq_record]
  exact Value.load_render (ofJson?_record a.included.ofJson?_toJson a.excluded.ofJson?_toJson a.allButExcluded)

end Audience

/-! ### Profiles -/

theorem Place.ofJson?_toJson {p : Place} (hp : p.point = none) : ofJson? p.toJson = some p := by
  have hfields : p.toJson.fields? ["address", "point"] =
      some [("address", .ofText p.address), ("point", (p.point.map Point.toJson).getD .null)] :=
    Value.fields?_record (by simp) (by simp)
  obtain ⟨address, point⟩ := p
  subst hp
  simp [ofJson?, hfields, point?]

theorem Profile.parse_render {p : Profile} (hp : p.place.point = none)
    (hf : ∀ i ∈ p.schedule.hours, Fits i.start ∧ Fits i.stop) : Profile.parse p.render = .ok p := by
  have hfields : p.toJson.fields? ["hours", "location"] =
      some [("hours", p.schedule.toJson), ("location", p.place.toJson)] :=
    Value.fields?_record (by simp) (by simp)
  have hschedule := Schedule.ofJson?_toJson hf
  have hplace := Place.ofJson?_toJson hp
  apply Value.load_render
  simp [ofJson?, hfields, hschedule, hplace]

/-! ### All of them -/

/-- Hours in whatever order and form, catalogs, audiences, and profiles without a point are read back as they
were written. So is an audience that was read from whatever text, and such texts may give any numbers of eight
bits for the kinds: the four lowest bits are what counts. -/
theorem records_read_back :
    (∀ h : Hours, (∀ i ∈ h, Fits i.start ∧ Fits i.stop) → Hours.parse h.render = .ok h) ∧
    (∀ c : Catalog, Catalog.parse c.render = .ok c) ∧
    (∀ a : Audience, Audience.parse a.render = .ok a) ∧
    (∀ p : Profile, p.place.point = none → (∀ i ∈ p.schedule.hours, Fits i.start ∧ Fits i.stop) →
      Profile.parse p.render = .ok p) ∧
    (∀ text a, Audience.parse text = .ok a → Audience.parse a.render = .ok a) ∧
    ∀ m n us vs all, m < 256 → n < 256 →
      Audience.parse (Audience.record (Selection.record m us) (Selection.record n vs) all).render =
        .ok ⟨⟨.ofCode m, us⟩, ⟨.ofCode n, vs⟩, all⟩ ∧
      (ChatKinds.ofCode m).code = m % 16 ∧ (ChatKinds.ofCode n).code = n % 16 := by
  refine ⟨fun h => Hours.parse_render, Catalog.parse_render, Audience.parse_render,
    fun p => Profile.parse_render, fun text a _ => a.parse_render, ?_⟩
  intro m n us vs all hm hn
  refine ⟨?_, ChatKinds.code_ofCode m, ChatKinds.code_ofCode n⟩
  exact Value.load_render
    (Audience.ofJson?_record (Selection.ofJson?_record hm us) (Selection.ofJson?_record hn vs) all)

/-- Raw hours with the least and the greatest ends, a profile that keeps such hours as they are, and an audience
with all eight bits given for its kinds. -/
theorem records_read_back_raw :
    Hours.parse (Hours.render [⟨7, 3⟩, ⟨-2147483648, 2147483647⟩]) =
      .ok [⟨7, 3⟩, ⟨-2147483648, 2147483647⟩] ∧
    Profile.parse (Profile.render ⟨⟨[⟨90000, 7⟩, ⟨0, 3600⟩], "\"Zoo\""⟩, ⟨"Straße 1\n😀", none⟩⟩) =
      .ok ⟨⟨[⟨90000, 7⟩, ⟨0, 3600⟩], "\"Zoo\""⟩, ⟨"Straße 1\n😀", none⟩⟩ ∧
    Audience.parse "[[255,[18446744073709551615]],[20]]" =
      .ok ⟨⟨.ofCode 255, [18446744073709551615]⟩, ⟨.ofCode 20, []⟩, false⟩ ∧
    Audience.parse (Audience.render ⟨⟨.ofCode 255, [18446744073709551615]⟩, ⟨.ofCode 20, []⟩, false⟩) =
      .ok ⟨⟨.ofCode 255, [18446744073709551615]⟩, ⟨.ofCode 20, []⟩, false⟩ ∧
    (ChatKinds.ofCode 255).code = 15 := by
  obtain ⟨hhours, -, -, hprofile, hback, hbits⟩ := records_read_back
  have hfits : ∀ i ∈ ([⟨7, 3⟩, ⟨-2147483648, 2147483647⟩] : Hours), Fits i.start ∧ Fits i.stop := by
    unfold Fits
    decide
  have hstored : ∀ i ∈ ([⟨90000, 7⟩, ⟨0, 3600⟩] : Hours), Fits i.start ∧ Fits i.stop := by
    unfold Fits
    decide
  have hread : Audience.parse "[[255,[18446744073709551615]],[20]]" =
      .ok ⟨⟨.ofCode 255, [18446744073709551615]⟩, ⟨.ofCode 20, []⟩, false⟩ := rfl
  exact ⟨hhours _ hfits, hprofile _ rfl hstored, hread, hback _ _ hread,
    (hbits 255 20 [] [] false (by decide) (by decide)).2.1⟩

end OpeningHours
