import GraphQL.Proofs.Promises

/-!
# Conformance

When data conform to a declared type. The keys of an object are those gathered for its runtime type
without the fields that were skipped, so conformance is relative to what the values of a run settled
to. Whatever shape a value is completed in suits the declared type of its place.
-/

namespace GraphQL

/-- A value has settled: where, and whether an authorizer gave it. -/
structure Settlement where
  path : Path
  authorizing : Bool
  value : FieldValue

def Event.settlements : Event → List Settlement
  | settled path authorizing value => [⟨path, authorizing, value⟩]
  | _ => []

def Execution.settlements (execution : Execution) : List Settlement :=
  execution.history.flatMap fun entry => entry.2.settlements

/-- The value that is completed, if the settled value is one. An empty list of errors is an empty
list. -/
def FieldValue.shown? : FieldValue → Option Json
  | .value shown => some shown
  | .errors [] => some (.arr [])
  | _ => none

namespace Settlement

def isSkip (settlement : Settlement) : Bool :=
  match settlement.value with
  | .skip => true
  | _ => false

/-- True if the field at the path, or its authorization, was skipped. -/
def skips (settlements : List Settlement) (path : Path) : Bool :=
  settlements.any fun settlement => settlement.isSkip && settlement.path = path

/-- The value at the path has settled to this. -/
def Shows (settlements : List Settlement) (path : Path) (value : Json) : Prop :=
  ∃ settlement ∈ settlements, settlement.path = path ∧ settlement.authorizing = false ∧
    settlement.value.shown? = some value

theorem skips_eq_true {settlements : List Settlement} {path : Path} :
    skips settlements path = true ↔
      ∃ settlement ∈ settlements, settlement.isSkip = true ∧ settlement.path = path := by
  simp [skips]

theorem skips_cons (settlement : Settlement) (settlements : List Settlement) (path : Path) :
    skips (settlement :: settlements) path =
      (settlement.isSkip && settlement.path = path || skips settlements path) := rfl

end Settlement

namespace Leaf

/-- The values of the built-in scalars. -/
structure Builtin (name : String) (value : Json) : Prop where
  int : name = "Int" → ∃ i, value = .int i ∧ minInt32 ≤ i ∧ i ≤ maxInt32
  float : name = "Float" → ∃ x, value = .float x ∧ x.isFinite = true
  string : name = "String" → ∃ text, value = .str text
  boolean : name = "Boolean" → ∃ b, value = .bool b
  id : name = "ID" → ∃ text, value = .str text

/-- The values of a leaf type. Those of a scalar are up to its coercer if there is one. -/
def Admits (coercers : Members ScalarCoercer) : LeafDef → Json → Prop
  | .scalar definition, value =>
    Members.get? definition.name coercers = none → Builtin definition.name value
  | .enum definition, value => ∃ name, value = .str name ∧ definition.hasValue name = true

theorem builtin_int {value output : Json} (h : coerceInt value = .ok output) :
    ∃ i, output = .int i ∧ minInt32 ≤ i ∧ i ≤ maxInt32 := by
  unfold coerceInt at h
  split at h
  · next i _ =>
    split at h
    · next hi => exact ⟨i, (Except.ok.inj h).symm, hi⟩
    · cases h
  · cases h

theorem builtin_float {value output : Json} (h : coerceFloat value = .ok output) :
    ∃ x, output = .float x ∧ x.isFinite = true := by
  unfold coerceFloat at h
  split at h
  · next x hx => exact ⟨x, (Except.ok.inj h).symm, (Option.filter_eq_some_iff.mp hx).2⟩
  · cases h

theorem builtin_string {value output : Json} (h : coerceString value = .ok output) :
    ∃ text, output = .str text := by
  cases value with
  | str text => exact ⟨text, (Except.ok.inj h).symm⟩
  | bool b => exact ⟨_, (Except.ok.inj h).symm⟩
  | int i => exact ⟨_, (Except.ok.inj h).symm⟩
  | float x => exact ⟨_, (Except.ok.inj h).symm⟩
  | null | arr | obj => cases h

theorem builtin_boolean {value output : Json} (h : coerceBoolean value = .ok output) :
    ∃ b, output = .bool b := by
  cases value with
  | bool b => exact ⟨b, (Except.ok.inj h).symm⟩
  | int i => exact ⟨_, (Except.ok.inj h).symm⟩
  | float x =>
    simp only [coerceBoolean] at h
    split at h
    · exact ⟨_, (Except.ok.inj h).symm⟩
    · cases h
  | null | str | arr | obj => cases h

theorem builtin_id {value output : Json} (h : coerceId value = .ok output) :
    ∃ text, output = .str text := by
  cases value with
  | str text => exact ⟨text, (Except.ok.inj h).symm⟩
  | int i => exact ⟨_, (Except.ok.inj h).symm⟩
  | null | bool | float | arr | obj => cases h

theorem admits_coerce {coercers : Members ScalarCoercer} {type : LeafDef} {value output : Json}
    (h : coerce coercers type value = .ok output) : Admits coercers type output := by
  cases type with
  | scalar definition =>
    intro hn
    simp only [coerce, coerceScalar, hn] at h
    refine ⟨fun he => ?_, fun he => ?_, fun he => ?_, fun he => ?_, fun he => ?_⟩ <;>
      rw [he] at h
    · exact builtin_int h
    · exact builtin_float h
    · exact builtin_string h
    · exact builtin_boolean h
    · exact builtin_id h
  | enum definition =>
    simp only [coerce, coerceEnum] at h
    split at h
    · split at h
      · next name hn => exact ⟨name, (Except.ok.inj h).symm, hn⟩
      · cases h
    · cases h

end Leaf

open Settlement

/-- The value conforms to the declared type of its place, at which these selections are made. -/
inductive Conforms (env : Environment) (settlements : List Settlement) :
    TypeRef → List Selection → Path → Json → Prop where
  /-- Null is admitted where the type is not non-null. -/
  | null {type : TypeRef} {selections : List Selection} {path : Path}
      (hn : type.isNonNull = false) : Conforms env settlements type selections path .null
  | nonNull {inner : TypeRef} {selections : List Selection} {path : Path} {value : Json}
      (hv : value ≠ .null) (h : Conforms env settlements inner selections path value) :
      Conforms env settlements (.nonNull inner) selections path value
  | late {name : String} {definition : TypeDef} {selections : List Selection} {path : Path}
      {value : Json} (hd : env.schema.visibleType? env.context name = some definition)
      (h : Conforms env settlements (.resolved definition) selections path value) :
      Conforms env settlements (.late name) selections path value
  | list {item : TypeRef} {selections : List Selection} {path : Path} {items : List Json}
      (each : ∀ place value, items[place]? = some value →
        Conforms env settlements item selections (path.index place) value) :
      Conforms env settlements (.list item) selections path (.arr items)
  | scalar {definition : ScalarDef} {selections : List Selection} {path : Path} {value : Json}
      (ha : Leaf.Admits env.registry.scalars (.scalar definition) value) :
      Conforms env settlements (.resolved (.scalar definition)) selections path value
  | enum {definition : EnumDef} {selections : List Selection} {path : Path} {value : Json}
      (ha : Leaf.Admits env.registry.scalars (.enum definition) value) :
      Conforms env settlements (.resolved (.enum definition)) selections path value
  /-- The keys of an object are those gathered for its type, in their order, without those that
  were skipped; each value conforms to the declared type of its field. -/
  | object {objectType : ObjectDef} {selections : List Selection} {path : Path}
      {groups : List FieldGroup} {members : List (String × Json)}
      (gathered : Gathering.collect env.schema env.document env.context (.object objectType)
        selections = .ok groups)
      (keys : members.map Prod.fst =
        (groups.map FieldGroup.key).filter fun key => !skips settlements (path.key key))
      (known : ∀ group ∈ groups, ∃ found,
        env.schema.field? (.object objectType) group.node.name = some found)
      (each : ∀ group ∈ groups, ∀ found,
        env.schema.field? (.object objectType) group.node.name = some found →
        ∀ value, (group.key, value) ∈ members →
          Conforms env settlements found.definition.type group.selections (path.key group.key)
            value) :
      Conforms env settlements (.resolved (.object objectType)) selections path (.obj members)
  /-- A value of an abstract type conforms to the object type that it was found to have. -/
  | abstract {type : TypeDef} {objectType : ObjectDef} {selections : List Selection} {path : Path}
      {settled value : Json} (ha : type.isAbstract = true) (hs : Shows settlements path settled)
      (ht : env.schema.concreteType? env.context type settled = some objectType)
      (h : Conforms env settlements (.resolved (.object objectType)) selections path value) :
      Conforms env settlements (.resolved type) selections path value

namespace Conforms

variable {env : Environment} {settlements others : List Settlement} {type : TypeRef}
  {selections : List Selection} {path : Path} {value : Json}

/-- What else has settled does not matter, unless it was skipped inside of the place. -/
theorem mono (h : Conforms env settlements type selections path value)
    (hsub : ∀ settlement ∈ settlements, settlement ∈ others)
    (hskips : ∀ other, path <+: other → other ≠ path →
      skips others other = skips settlements other) :
    Conforms env others type selections path value := by
  have hinside : ∀ (path : Path) (segment : PathSegment) (other : Path),
      path ++ [segment] <+: other → path <+: other ∧ other ≠ path := by
    intro path segment other hp
    refine ⟨(List.prefix_append path [segment]).trans hp, ?_⟩
    rintro rfl
    exact Path.not_child_prefix _ segment hp
  induction h with
  | null hn => exact .null hn
  | nonNull hv _ ih => exact .nonNull hv (ih hskips)
  | late hd _ ih => exact .late hd (ih hskips)
  | list _ ih =>
    refine .list fun place value hvalue => ih place value hvalue fun other hp _ => ?_
    obtain ⟨hpath, hne⟩ := hinside _ _ _ hp
    exact hskips other hpath hne
  | scalar ha => exact .scalar ha
  | enum ha => exact .enum ha
  | @object objectType selections path groups members gathered keys known _ ih =>
    refine .object gathered ?_ known fun group hg found hf value hm => ?_
    · rw [keys]
      refine List.filter_congr fun key _ => ?_
      obtain ⟨hpath, hne⟩ := hinside path (.key key) _ (List.prefix_refl _)
      exact congrArg (! ·) (hskips _ hpath hne).symm
    · refine ih group hg found hf value hm fun other hp _ => ?_
      obtain ⟨hpath, hne⟩ := hinside _ _ _ hp
      exact hskips other hpath hne
  | abstract ha hs ht _ ih =>
    obtain ⟨settlement, hm, hshows⟩ := hs
    exact .abstract ha ⟨settlement, hsub settlement hm, hshows⟩ ht (ih hskips)

end Conforms

/-- Values of the shape conform to the type. -/
def Shaped.Suits (env : Environment) (content : Content) (type : TypeRef) : Shaped → Prop
  | null _ => True
  | leaf output => output ≠ .null ∧
    ∀ settlements selections path, Conforms env settlements type selections path output
  | list itemType _ => ∀ settlements selections path items,
    (∀ place value, items[place]? = some value →
      Conforms env settlements itemType selections (path.index place) value) →
      Conforms env settlements type selections path (.arr items)
  | object objectType settled => content = .value settled ∧
    ∀ settlements selections path value, value ≠ .null → Shows settlements path settled →
      Conforms env settlements (.resolved (.object objectType)) selections path value →
      Conforms env settlements type selections path value
  | fault _ => True

namespace Shaped

variable (env : Environment) (site : Site) (content : Content)

theorem suits_leaf (definition : Leaf.LeafDef) {type : TypeRef}
    (h : ∀ output settlements selections path,
      Leaf.Admits env.registry.scalars definition output →
        Conforms env settlements type selections path output) :
    (ofLeaf env site definition content).Suits env content type := by
  cases content with
  | items items => trivial
  | value value =>
    simp only [ofLeaf]
    cases hc : Leaf.coerce env.registry.scalars definition value with
    | error message => trivial
    | ok output =>
      have hadmits := Leaf.admits_coerce hc
      cases output with
      | null => trivial
      | _ => exact ⟨by simp, fun settlements selections path => h _ _ _ _ hadmits⟩

theorem suits_abstract {type : TypeDef} (ha : type.isAbstract = true) :
    (ofAbstract env site type content).Suits env content (.resolved type) := by
  cases content with
  | items items => trivial
  | value value =>
    simp only [ofAbstract]
    cases ht : env.schema.concreteType? env.context type value with
    | none => trivial
    | some objectType =>
      exact ⟨rfl, fun settlements selections path _ _ hs h => .abstract ha hs ht h⟩

theorem suits_named (type : TypeDef) :
    (ofNamed env site content type).Suits env content (.resolved type) := by
  cases type with
  | scalar definition =>
    exact suits_leaf env site content (.scalar definition) fun _ _ _ _ ha => .scalar ha
  | enum definition =>
    exact suits_leaf env site content (.enum definition) fun _ _ _ _ ha => .enum ha
  | union definition => exact suits_abstract env site content rfl
  | interface definition => exact suits_abstract env site content rfl
  | object definition =>
    cases content with
    | items items => trivial
    | value value => exact ⟨rfl, fun _ _ _ _ _ _ h => h⟩
  | inputObject definition => trivial

/-- A shape suits every type that leads to one that it suits. -/
theorem Suits.wrap {inner type : TypeRef} {shaped : Shaped}
    (h : shaped.Suits env content inner)
    (hw : ∀ settlements selections path value, value ≠ .null →
      Conforms env settlements inner selections path value →
        Conforms env settlements type selections path value) :
    shaped.Suits env content type := by
  cases shaped with
  | null errors => trivial
  | leaf output => exact ⟨h.1, fun _ _ _ => hw _ _ _ _ h.1 (h.2 _ _ _)⟩
  | list itemType items => exact fun _ _ _ _ he => hw _ _ _ _ (by simp) (h _ _ _ _ he)
  | object objectType value =>
    exact ⟨h.1, fun _ _ _ _ hv hs hc => hw _ _ _ _ hv (h.2 _ _ _ _ hv hs hc)⟩
  | fault raised => trivial

/-- A value is completed in a shape that suits its type. -/
theorem suits (type : TypeRef) : (of env site content type).Suits env content type := by
  induction type with
  | resolved definition => exact suits_named env site content definition
  | late name =>
    rw [of]
    split
    · next definition hd =>
      exact (suits_named env site content definition).wrap env content
        fun _ _ _ _ _ h => .late hd h
    · trivial
  | list item _ =>
    rw [of]
    split
    · trivial
    · exact fun settlements selections path items each => .list each
  | nonNull inner ih => exact ih.wrap env content fun _ _ _ _ hv h => .nonNull hv h

end Shaped

end GraphQL
