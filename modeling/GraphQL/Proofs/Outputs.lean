import GraphQL.Proofs.Conformance
import GraphQL.Schema.Builtin

/-!
# Coercing an output again changes nothing

The built-in scalars take values of several kinds, each by a way of its own, and an enum takes the
names of its values. Whatever is taken, the output is a value of the type, and each value of the
type is taken for itself. So coercion is a projection onto the values of the type, to which null
never belongs. Integers are not converted on their way: as `Int` they are kept or refused by their
range, and as `ID` they become their decimal text.
-/

namespace GraphQL

namespace Leaf

/-- The leaf types whose coercion is built in: the enums, and the built-in scalars for which the
application has set no coercer. -/
inductive Stock (coercers : Members ScalarCoercer) : LeafDef → Prop where
  | scalar {definition : ScalarDef} (hn : definition.name ∈ builtinScalars)
      (hc : Members.get? definition.name coercers = none) : Stock coercers (.scalar definition)
  | enum (definition : EnumDef) : Stock coercers (.enum definition)

variable {coercers : Members ScalarCoercer} {type : LeafDef} {definition : ScalarDef}
  {value output : Json} {i : Int}

section Builtin

/-! Each value of a built-in scalar is taken for itself. -/

theorem coerceInt_int :
    coerceInt (.int i) = .ok output ↔ (minInt32 ≤ i ∧ i ≤ maxInt32) ∧ output = .int i := by
  rw [coerceInt]
  dsimp only [integerOf?]
  split
  · next hi => exact ⟨fun h => ⟨hi, (Except.ok.inj h).symm⟩, fun h => congrArg Except.ok h.2.symm⟩
  · next hi => exact ⟨nofun, fun h => absurd h.1 hi⟩

theorem coerceFloat_float {x : Float} (hx : x.isFinite = true) :
    coerceFloat (.float x) = .ok (.float x) := by
  simp only [coerceFloat, floatOf?, Option.filter_some, hx, if_true]

theorem coerceId_int : coerceId (.int i) = .ok (.str (toString i)) := by
  simp only [coerceId, Json.render, Json.chars, Json.intChars, String.ofList_toList]

end Builtin

/-- Without a coercer of its own a scalar is coerced by its name only. -/
theorem coerce_scalar (hc : Members.get? definition.name coercers = none) :
    coerce coercers (.scalar definition) value = coerceScalar [] definition.name value := by
  simp only [coerce, coerceScalar, hc, Members.get?]

/-- Coercion takes each value of the type for itself. -/
theorem coerce_admitted (h : Stock coercers type) (ha : Admits coercers type output) :
    coerce coercers type output = .ok output := by
  cases h with
  | scalar hn hc =>
    rw [coerce_scalar hc]
    simp only [builtinScalars, List.mem_cons, List.not_mem_nil, or_false] at hn
    rcases hn with hn | hn | hn | hn | hn <;> rw [hn]
    · obtain ⟨i, rfl, hi⟩ := (ha hc).int hn
      exact coerceInt_int.mpr ⟨hi, rfl⟩
    · obtain ⟨x, rfl, hx⟩ := (ha hc).float hn
      exact coerceFloat_float hx
    · obtain ⟨text, rfl⟩ := (ha hc).string hn
      rfl
    · obtain ⟨b, rfl⟩ := (ha hc).boolean hn
      rfl
    · obtain ⟨text, rfl⟩ := (ha hc).id hn
      rfl
  | enum definition =>
    obtain ⟨name, rfl, hname⟩ := ha
    exact if_pos hname

/-- Null is refused, so it is not a value of the type. -/
theorem coerce_null (h : Stock coercers type) : coerce coercers type .null ≠ .ok output := by
  cases h with
  | scalar hn hc =>
    rw [coerce_scalar hc]
    simp only [builtinScalars, List.mem_cons, List.not_mem_nil, or_false] at hn
    rcases hn with hn | hn | hn | hn | hn <;> rw [hn] <;> exact nofun
  | enum definition => exact nofun

theorem ne_null_of_admitted (h : Stock coercers type) (ha : Admits coercers type output) :
    output ≠ .null := by
  rintro rfl
  exact coerce_null h (coerce_admitted h ha)

/-- **Built-in coercion is a projection onto the values of the type.** What it gives is a value of
the type, is not null and is taken for itself, and it gives every value of the type. An integer is
an `Int` just within 32 bits, and then as it is; as an `ID` it is its decimal text. -/
theorem coercion_projects (coercers : Members ScalarCoercer) (type : LeafDef)
    (h : Stock coercers type) :
    (∀ value output, coerce coercers type value = .ok output →
      Admits coercers type output ∧ output ≠ .null ∧ coerce coercers type output = .ok output) ∧
    (∀ output, Admits coercers type output → coerce coercers type output = .ok output) ∧
    ∀ definition, type = .scalar definition → ∀ i : Int,
      (definition.name = "Int" → ∀ output, coerce coercers type (.int i) = .ok output ↔
        (-2147483648 ≤ i ∧ i ≤ 2147483647) ∧ output = .int i) ∧
      (definition.name = "ID" → coerce coercers type (.int i) = .ok (.str (toString i))) := by
  refine ⟨fun value output hv => ?_, fun output ha => coerce_admitted h ha, ?_⟩
  · have ha := admits_coerce hv
    exact ⟨ha, ne_null_of_admitted h ha, coerce_admitted h ha⟩
  · rintro definition rfl i
    cases h with
    | scalar hn hc =>
      refine ⟨fun hint output => ?_, fun hid => ?_⟩
      · rw [coerce_scalar hc, hint]
        exact coerceInt_int
      · rw [coerce_scalar hc, hid]
        exact coerceId_int

/-- The names of the days on which there is a market. -/
def marketDays : EnumDef where
  name := "MarketDay"
  values := [{ name := "TUESDAY" }, { name := "SATURDAY" }]

/-- Integers are kept up to the ends of their range, and a declared name stays as it is. -/
theorem ends_projected :
    (coerce [] (.scalar { name := "Int" }) (.bool true) = .ok (.int 1) ∧
      coerce [] (.scalar { name := "Int" }) (.int 1) = .ok (.int 1)) ∧
    coerce [] (.scalar { name := "Int" }) (.int (-2147483648)) = .ok (.int (-2147483648)) ∧
    (∀ output, coerce [] (.scalar { name := "Int" }) (.int 2147483648) ≠ .ok output) ∧
    coerce [] (.scalar { name := "ID" }) (.int 18446744073709551615) =
      .ok (.str "18446744073709551615") ∧
    coerce [] (.enum marketDays) (.str "TUESDAY") = .ok (.str "TUESDAY") := by
  have hint := coercion_projects [] (.scalar { name := "Int" }) (.scalar (by decide) rfl)
  have hid := coercion_projects [] (.scalar { name := "ID" }) (.scalar (by decide) rfl)
  have henum := coercion_projects [] (.enum marketDays) (.enum marketDays)
  refine ⟨⟨rfl, (hint.1 (.bool true) (.int 1) rfl).2.2⟩, ?_, ?_, ?_, ?_⟩
  · exact ((hint.2.2 _ rfl _).1 rfl _).mpr ⟨by decide, rfl⟩
  · intro output h
    exact absurd (((hint.2.2 _ rfl _).1 rfl _).mp h).1 (by decide)
  · exact (hid.2.2 _ rfl _).2 rfl
  · exact henum.2.1 _ ⟨"TUESDAY", rfl, by decide⟩

end Leaf

end GraphQL
