import GraphQL.Introspection.Resolvers
import GraphQL.Proofs.Following
import GraphQL.Proofs.Hidden

/-!
# References that are bound in advance

A late reference can be replaced by a resolved one to the definition that is registered under its
name. Two schemas that differ in how their references are bound find the same types, up to the
references in them: types by their names, possible types and object types of values, and the fields
that are selected on a type. Introspection describes both alike.
-/

namespace GraphQL

section Alike

variable {ρ : Type} (R : ρ → ρ → Prop)

/-- Arguments or input fields that differ by a reference. -/
inductive InputFieldDefOf.Alike : InputFieldDefOf ρ → InputFieldDefOf ρ → Prop where
  | intro (name : String) (description : Option String) (defaultValue : Option Json) {type other : ρ}
      (h : R type other) :
      Alike ⟨name, description, type, defaultValue⟩ ⟨name, description, other, defaultValue⟩

/-- Fields that differ by references. -/
inductive FieldDefOf.Alike : FieldDefOf ρ → FieldDefOf ρ → Prop where
  | intro (name : String) (description : Option String) (deprecation : Deprecation)
      (extras : List FieldExtra) {type other : ρ} {arguments others : List (InputFieldDefOf ρ)}
      (h : R type other) (ha : List.Forall₂ (InputFieldDefOf.Alike R) arguments others) :
      Alike ⟨name, description, type, arguments, deprecation, extras⟩
        ⟨name, description, other, others, deprecation, extras⟩

/-- Types that differ by references. -/
inductive TypeDefOf.Alike : TypeDefOf ρ → TypeDefOf ρ → Prop where
  | scalar (definition : ScalarDef) : Alike (.scalar definition) (.scalar definition)
  | union (definition : UnionDef) : Alike (.union definition) (.union definition)
  | enum (definition : EnumDef) : Alike (.enum definition) (.enum definition)
  | object (name : String) (description : Option String) (interfaces : List String)
      {fields others : List (FieldDefOf ρ)}
      (h : List.Forall₂ (FieldDefOf.Alike R) fields others) :
      Alike (.object ⟨name, description, fields, interfaces⟩)
        (.object ⟨name, description, others, interfaces⟩)
  | interface (name : String) (description : Option String) (interfaces : List String)
      {fields others : List (FieldDefOf ρ)}
      (h : List.Forall₂ (FieldDefOf.Alike R) fields others) :
      Alike (.interface ⟨name, description, fields, interfaces⟩)
        (.interface ⟨name, description, others, interfaces⟩)
  | inputObject (name : String) (description : Option String)
      {fields others : List (InputFieldDefOf ρ)}
      (h : List.Forall₂ (InputFieldDefOf.Alike R) fields others) :
      Alike (.inputObject ⟨name, description, fields⟩) (.inputObject ⟨name, description, others⟩)

end Alike

/-- `TypeRef.Bound schema ref other`: the second reference is the first one after some late
references in it have been replaced by resolved ones to the definitions that the schema registers
under their names. In these definitions references may have been replaced in turn. -/
inductive TypeRef.Bound (schema : Schema) : TypeRef → TypeRef → Prop where
  | same (type : TypeRef) : Bound schema type type
  | bind {name : String} {definition other : TypeDef} (hf : schema.type? name = some definition)
      (h : definition.Alike (Bound schema) other) : Bound schema (.late name) (.resolved other)
  | resolved {definition other : TypeDef} (h : definition.Alike (Bound schema) other) :
      Bound schema (.resolved definition) (.resolved other)
  | list {item other : TypeRef} (h : Bound schema item other) :
      Bound schema (.list item) (.list other)
  | nonNull {inner other : TypeRef} (h : Bound schema inner other) :
      Bound schema (.nonNull inner) (.nonNull other)

/-- The types differ by references that have been bound. -/
abbrev TypeDef.Bound (schema : Schema) : TypeDef → TypeDef → Prop :=
  TypeDefOf.Alike (TypeRef.Bound schema)

namespace TypeDefOf.Alike

variable {ρ : Type} {R : ρ → ρ → Prop} {one other : TypeDefOf ρ}

theorem refl (hr : ∀ ref, R ref ref) (type : TypeDefOf ρ) : type.Alike R type := by
  have hinput : ∀ input : InputFieldDefOf ρ, input.Alike R input :=
    fun input => .intro _ _ _ (hr input.type)
  have hfield : ∀ field : FieldDefOf ρ, field.Alike R field := fun field =>
    .intro _ _ _ _ (hr field.type) (List.forall₂_same.mpr fun input _ => hinput input)
  cases type with
  | scalar definition => exact .scalar definition
  | union definition => exact .union definition
  | enum definition => exact .enum definition
  | object definition =>
    exact .object _ _ _ (List.forall₂_same.mpr fun field _ => hfield field)
  | interface definition =>
    exact .interface _ _ _ (List.forall₂_same.mpr fun field _ => hfield field)
  | inputObject definition =>
    exact .inputObject _ _ (List.forall₂_same.mpr fun input _ => hinput input)

theorem name_eq (h : one.Alike R other) : one.name = other.name := by
  cases h <;> rfl

theorem isObject_eq (h : one.Alike R other) : one.isObject = other.isObject := by
  cases h <;> rfl

theorem isAbstract_eq (h : one.Alike R other) : one.isAbstract = other.isAbstract := by
  cases h <;> rfl

theorem interfaces?_eq (h : one.Alike R other) : one.interfaces? = other.interfaces? := by
  cases h <;> rfl

theorem implements_eq {R : TypeRef → TypeRef → Prop} {one other : TypeDef}
    (h : one.Alike R other) (interfaceName : String) :
    Schema.implements one interfaceName = Schema.implements other interfaceName := by
  cases h <;> rfl

theorem fields? (h : one.Alike R other) :
    Option.Rel (List.Forall₂ (FieldDefOf.Alike R)) one.fields? other.fields? := by
  cases h with
  | object _ _ _ hfields => exact .some hfields
  | interface _ _ _ hfields => exact .some hfields
  | _ => exact .none

end TypeDefOf.Alike

namespace TypeRef

/-- The reference with resolved references read as late ones. -/
def outline : TypeRef → TypeRef
  | resolved definition => late definition.name
  | late name => late name
  | list item => list item.outline
  | nonNull inner => nonNull inner.outline

theorem isNonNull_outline (type : TypeRef) : type.outline.isNonNull = type.isNonNull := by
  cases type <;> rfl

/-- A reference is written in the same way whether it is late or resolved. -/
theorem text_outline (type : TypeRef) : type.outline.text = type.text := by
  induction type with
  | resolved definition => rfl
  | late name => rfl
  | list item ih => rw [outline, text, text, ih]
  | nonNull inner ih => rw [outline, text, text, ih]

namespace Bound

variable {schema : Schema} {ref other : TypeRef}

/-- Induction on the wrappers of a reference in which late ones have been bound. -/
theorem wrappers {motive : ∀ ref other, TypeRef.Bound schema ref other → Prop}
    (late : ∀ name, motive (.late name) (.late name) (.same _))
    (bind : ∀ name definition other (hf : schema.type? name = some definition)
      (h : definition.Bound schema other), motive (.late name) (.resolved other) (.bind hf h))
    (resolved : ∀ definition other (h : TypeDef.Bound schema definition other),
      motive (.resolved definition) (.resolved other) (.resolved h))
    (list : ∀ item other (h : TypeRef.Bound schema item other), motive item other h →
      motive (.list item) (.list other) (.list h))
    (nonNull : ∀ inner other (h : TypeRef.Bound schema inner other), motive inner other h →
      motive (.nonNull inner) (.nonNull other) (.nonNull h))
    (h : TypeRef.Bound schema ref other) : motive ref other h := by
  induction ref generalizing other with
  | resolved definition =>
    cases h with
    | same => exact resolved _ _ (.refl .same definition)
    | resolved h => exact resolved _ _ h
  | late name =>
    cases h with
    | same => exact late name
    | bind hf h => exact bind _ _ _ hf h
  | list item ih =>
    cases h with
    | same => exact list _ _ (.same item) (ih (.same item))
    | list h => exact list _ _ h (ih h)
  | nonNull inner ih =>
    cases h with
    | same => exact nonNull _ _ (.same inner) (ih (.same inner))
    | nonNull h => exact nonNull _ _ h (ih h)

theorem outline_eq (h : ref.Bound schema other) : ref.outline = other.outline := by
  induction h using wrappers with
  | late name => rfl
  | bind name definition other hf h =>
    rw [outline, outline, ← h.name_eq, Schema.name_of_type hf]
  | resolved definition other h => rw [outline, outline, h.name_eq]
  | list item other _ ih => rw [outline, outline, ih]
  | nonNull inner other _ ih => rw [outline, outline, ih]

theorem text_eq (h : ref.Bound schema other) : ref.text = other.text := by
  rw [← text_outline ref, ← text_outline other, h.outline_eq]

end Bound

end TypeRef

namespace Schema

theorem visibleType?_of_unhidden {schema : Schema} (h : schema.visibility = none)
    (context : Context) : schema.visibleType? context = schema.type? := by
  funext name
  rw [visibleType?, h]
  cases schema.type? name <;> rfl

/-- The second schema is the first one after late references to registered types have been replaced
by resolved ones, in the types of fields, arguments and input fields. Neither hides types. -/
structure Binds (a b : Schema) : Prop where
  queryType : a.queryType = b.queryType
  mutationType : a.mutationType = b.mutationType
  subscriptionType : a.subscriptionType = b.subscriptionType
  directives : a.directives = b.directives
  typeResolvers : a.typeResolvers = b.typeResolvers
  unhidden : a.visibility = none
  unhidden' : b.visibility = none
  types : List.Forall₂ (TypeDef.Bound a) a.types b.types

namespace Binds

variable {a b : Schema} (h : a.Binds b) (context : Context)

include h

theorem type? (name : String) : Option.Rel (TypeDef.Bound a) (a.type? name) (b.type? name) :=
  forall₂_find? h.types fun htype => by simp only [Named.name, htype.name_eq]

theorem visibleType? (name : String) : Option.Rel (TypeDef.Bound a)
    (a.visibleType? context name) (b.visibleType? context name) := by
  rw [visibleType?_of_unhidden h.unhidden, visibleType?_of_unhidden h.unhidden']
  exact h.type? name

theorem rootType (kind : OperationKind) :
    Concur (TypeDef.Bound a) (a.rootType context kind) (b.rootType context kind) := by
  have hname : a.rootName? kind = b.rootName? kind := by
    cases kind with
    | query => exact h.queryType
    | mutation => exact h.mutationType
    | subscription => exact h.subscriptionType
  rw [Schema.rootType, Schema.rootType, hname]
  cases b.rootName? kind with
  | none => exact .error _
  | some name =>
    have hfound := h.visibleType? context name
    dsimp only
    generalize a.visibleType? context name = found, b.visibleType? context name = found' at hfound
    cases hfound with
    | none => exact .error _
    | some htype => exact .ok htype

/-- Looked up as far as its outermost name, a reference leads to the same type. -/
theorem resolve {ref other : TypeRef} (hr : ref.Bound a other) :
    Concur (TypeRef.Bound a) (a.resolve context ref) (b.resolve context other) := by
  induction hr using TypeRef.Bound.wrappers with
  | late name =>
    have hfound := h.visibleType? context name
    rw [Schema.resolve, Schema.resolve]
    generalize a.visibleType? context name = found, b.visibleType? context name = found' at hfound
    cases hfound with
    | none => exact .error _
    | some htype => exact .ok (.resolved htype)
  | bind name definition other hf hbound =>
    rw [Schema.resolve, visibleType?_of_unhidden h.unhidden, hf]
    exact .ok (.resolved hbound)
  | resolved definition other hbound => exact .ok (.resolved hbound)
  | list item other hitem _ => exact .ok (.list hitem)
  | nonNull inner other hinner _ => exact .ok (.nonNull hinner)

theorem possibleTypes {one other : TypeDef} (ht : one.Bound a other) :
    List.Forall₂ (TypeDef.Bound a) (a.possibleTypes one) (b.possibleTypes other) := by
  cases ht with
  | object name description interfaces _ =>
    have hfound := h.type? name
    rw [Schema.possibleTypes, Schema.possibleTypes]
    generalize a.type? name = found, b.type? name = found' at hfound
    cases hfound with
    | none => exact .nil
    | some htype => exact .cons htype .nil
  | union definition =>
    exact forall₂_filter (forall₂_filterMap h.type? definition.members) fun hm => hm.isObject_eq
  | interface name description interfaces _ =>
    exact forall₂_filter h.types fun hm => hm.implements_eq name
  | scalar | enum | inputObject => exact .nil

theorem isPossibleType_eq {one other : TypeDef} (ht : one.Bound a other) (name : String) :
    a.isPossibleType one name = b.isPossibleType other name := by
  cases ht with
  | interface interfaceName _ _ _ =>
    have hfound := h.type? name
    rw [isPossibleType, isPossibleType]
    generalize a.type? name = found, b.type? name = found' at hfound
    cases hfound with
    | none => rfl
    | some htype => exact htype.implements_eq interfaceName
  | _ => rfl

/-- Values of an abstract type have the same object type. -/
theorem concreteType? {one other : TypeDef} (ht : one.Bound a other) (value : Json) :
    Option.Rel (fun object object' => TypeDef.Bound a (.object object) (.object object'))
      (a.concreteType? context one value) (b.concreteType? context other value) := by
  have hname : a.concreteName? context one value = b.concreteName? context other value := by
    have honly := h.possibleTypes ht
    rw [concreteName?, concreteName?, h.typeResolvers, ht.name_eq]
    generalize a.possibleTypes one = types, b.possibleTypes other = types' at honly
    cases honly with
    | nil => rfl
    | cons htype hrest =>
      cases hrest with
      | nil => dsimp only; rw [htype.name_eq]
      | cons _ _ => rfl
  rw [Schema.concreteType?, Schema.concreteType?, hname]
  cases b.concreteName? context other value with
  | none => exact .none
  | some name =>
    have hfound := h.visibleType? context name
    dsimp only
    rw [h.isPossibleType_eq ht]
    generalize a.visibleType? context name = found, b.visibleType? context name = found' at hfound
    cases hfound with
    | none => exact .none
    | some htype =>
      cases htype with
      | object _ _ _ hfields =>
        dsimp only
        split
        · exact .some (.object _ _ _ hfields)
        · exact .none
      | _ => exact .none

end Binds

end Schema

/-- Definitions of a field that differ by references that have been bound. -/
inductive FieldLookup.Bound (schema : Schema) : FieldLookup → FieldLookup → Prop where
  | ordinary {definition other : FieldDef} (h : definition.Alike (TypeRef.Bound schema) other) :
      Bound schema (.ordinary definition) (.ordinary other)
  | introspection (field : MetaField) : Bound schema (.introspection field) (.introspection field)

namespace FieldLookup.Bound

variable {schema : Schema} {found other : FieldLookup}

theorem definition (h : found.Bound schema other) :
    found.definition.Alike (TypeRef.Bound schema) other.definition := by
  cases h with
  | ordinary h => exact h
  | introspection field =>
    exact .intro _ _ _ _ (.same _) (List.forall₂_same.mpr fun _ _ => .intro _ _ _ (.same _))

end FieldLookup.Bound

namespace FieldDefOf.Alike

variable {ρ : Type} {R : ρ → ρ → Prop} {one other : FieldDefOf ρ}

theorem name_eq (h : one.Alike R other) : one.name = other.name := by
  cases h
  rfl

theorem extras_eq (h : one.Alike R other) : one.extras = other.extras := by
  cases h
  rfl

theorem deprecation_eq (h : one.Alike R other) : one.deprecation = other.deprecation := by
  cases h
  rfl

theorem type (h : one.Alike R other) : R one.type other.type := by
  cases h
  assumption

theorem arguments (h : one.Alike R other) :
    List.Forall₂ (InputFieldDefOf.Alike R) one.arguments other.arguments := by
  cases h
  assumption

end FieldDefOf.Alike

/-- Arguments depend on their definitions by names and defaults only. -/
theorem Arguments.build_alike {R : TypeRef → TypeRef → Prop} {definitions others : List InputFieldDef}
    (h : List.Forall₂ (InputFieldDefOf.Alike R) definitions others)
    (supplied : List (String × InputValue)) (bindings : Members Json) :
    build definitions supplied bindings = build others supplied bindings := by
  have hdefaults : ∀ arguments, withDefaults definitions arguments = withDefaults others arguments := by
    unfold withDefaults
    induction h with
    | nil => exact fun _ => rfl
    | cons hinput _ ih =>
      intro arguments
      cases hinput
      exact ih _
  rw [build, build, hdefaults]

namespace Schema.Binds

variable {a b : Schema} (h : a.Binds b)

include h

theorem field? {owner other : TypeDef} (ho : owner.Bound a other) (name : String) :
    Option.Rel (FieldLookup.Bound a) (a.field? owner name) (b.field? other name) := by
  have hroot : a.isQueryRoot owner.name = b.isQueryRoot other.name := by
    rw [isQueryRoot, isQueryRoot, h.queryType, ho.name_eq]
  have hfields : List.Forall₂ (FieldDefOf.Alike (TypeRef.Bound a)) (owner.fields?.getD [])
      (other.fields?.getD []) := by
    have hrel := ho.fields?
    generalize owner.fields? = fields, other.fields? = fields' at hrel
    cases hrel with
    | none => exact .nil
    | some hfields => exact hfields
  have hown := forall₂_find? hfields (p := fun field => field.name = name)
    (q := fun field => field.name = name) fun hfield => by rw [hfield.name_eq]
  rw [Schema.field?, Schema.field?, hroot]
  generalize (owner.fields?.getD []).find? _ = found, (other.fields?.getD []).find? _ = found' at hown
  cases hown with
  | some hfield => exact .some (.ordinary hfield)
  | none =>
    dsimp only
    split_ifs
    · exact .some (.introspection .schema)
    · exact .some (.introspection .type)
    · exact .some (.introspection .typename)
    · exact .none

theorem applies_eq (context : Context) (condition : String) {type other : TypeDef}
    (ht : type.Bound a other) : Gathering.applies b context condition other =
      Gathering.applies a context condition type := by
  have hfound := h.visibleType? context condition
  rw [Gathering.applies, Gathering.applies, ht.name_eq]
  generalize a.visibleType? context condition = found,
    b.visibleType? context condition = found' at hfound
  cases hfound with
  | none => rfl
  | some hdefinition => exact congrArg Except.ok (h.isPossibleType_eq hdefinition _).symm

/-- The same fields are selected. -/
theorem collect_eq (document : Document) (context : Context) {type other : TypeDef}
    (ht : type.Bound a other) (selections : List Selection) :
    Gathering.collect b document context other selections =
      Gathering.collect a document context type selections :=
  Gathering.collect_congr (shouldInclude_congr h.directives.symm _)
    (fun condition => h.applies_eq context condition ht) selections

end Schema.Binds

namespace Introspection

theorem describeType_eq {R : TypeRef → TypeRef → Prop} {type other : TypeDef}
    (h : type.Alike R other) : describeType type = describeType other := by
  cases h <;> rfl

variable {a b : Schema} (h : a.Binds b) (context : Context)

include h

/-- A reference is described in the same way whether it is late or resolved. -/
theorem describeRef_bound {ref other : TypeRef} (hr : ref.Bound a other) :
    describeRef a ref = describeRef b other := by
  induction hr using TypeRef.Bound.wrappers with
  | late name =>
    have hfound := h.type? name
    rw [describeRef_late, describeRef_late]
    generalize a.type? name = found, b.type? name = found' at hfound
    cases hfound with
    | none => rfl
    | some htype => exact describeType_eq htype
  | bind name definition other hf hbound =>
    rw [describeRef_late, hf]
    exact describeType_eq hbound
  | resolved definition other hbound => exact describeType_eq hbound
  | list item other _ ih => rw [describeRef, describeRef, ih]
  | nonNull inner other _ ih => rw [describeRef, describeRef, ih]

theorem describeInputs_bound {inputs others : List InputFieldDef}
    (hi : List.Forall₂ (InputFieldDefOf.Alike (TypeRef.Bound a)) inputs others) :
    inputs.map (describeInput a) = others.map (describeInput b) := by
  refine map_eq_of_forall₂ hi fun hinput => ?_
  cases hinput with
  | intro _ _ _ htype => rw [describeInput, describeInput, describeRef_bound h htype]

theorem describeField_bound {field other : FieldDef}
    (hf : field.Alike (TypeRef.Bound a) other) : describeField a field = describeField b other := by
  cases hf with
  | intro _ _ _ _ htype harguments =>
    rw [describeField, describeField, describeRef_bound h htype, describeInputs_bound h harguments]

theorem describeFields_bound {type other : TypeDef} (ht : type.Bound a other)
    (deprecatedToo : Bool) :
    describeFields a deprecatedToo type = describeFields b deprecatedToo other := by
  have hfields := ht.fields?
  rw [describeFields, describeFields]
  generalize type.fields? = fields, other.fields? = fields' at hfields
  cases hfields with
  | none => rfl
  | some hfields =>
    have hkept := forall₂_filter hfields
      (p := fun field => deprecatedToo || !field.deprecation.isDeprecated)
      (q := fun field => deprecatedToo || !field.deprecation.isDeprecated)
      fun hfield => by rw [hfield.deprecation_eq]
    exact congrArg some (map_eq_of_forall₂ hkept fun hfield => describeField_bound h hfield)

theorem describeInputFields_bound {type other : TypeDef} (ht : type.Bound a other) :
    describeInputFields a type = describeInputFields b other := by
  cases ht with
  | inputObject _ _ hfields => exact congrArg some (describeInputs_bound h hfields)
  | _ => rfl

omit h in
theorem describeEnumValues_bound {type other : TypeDef} (ht : type.Bound a other)
    (deprecatedToo : Bool) :
    describeEnumValues deprecatedToo type = describeEnumValues deprecatedToo other := by
  cases ht <;> rfl

omit h in
theorem describeTypes_bound {types others : List TypeDef}
    (ht : List.Forall₂ (TypeDef.Bound a) types others) :
    types.map describeType = others.map describeType :=
  map_eq_of_forall₂ ht fun htype => describeType_eq htype

theorem describeInterfaces_bound {type other : TypeDef} (ht : type.Bound a other) :
    describeInterfaces a context type = describeInterfaces b context other := by
  rw [describeInterfaces, describeInterfaces, ht.interfaces?_eq]
  cases other.interfaces? with
  | none => rfl
  | some names =>
    exact congrArg some (describeTypes_bound (forall₂_filterMap (h.visibleType? context) names))

theorem describePossibleTypes_bound {type other : TypeDef} (ht : type.Bound a other) :
    describePossibleTypes a context type = describePossibleTypes b context other := by
  have hseen : ∀ {one other : TypeDef}, one.Bound a other →
      (a.visibleType? context one.name).isSome = (b.visibleType? context other.name).isSome := by
    intro one other hone
    have hfound := h.visibleType? context one.name
    rw [← hone.name_eq]
    generalize a.visibleType? context one.name = found,
      b.visibleType? context one.name = found' at hfound
    cases hfound <;> rfl
  rw [describePossibleTypes, describePossibleTypes, ht.isAbstract_eq]
  split
  · exact congrArg some (describeTypes_bound
      (forall₂_filter (h.possibleTypes ht) fun htype => hseen htype))
  · rfl

theorem describeNamed_bound (name : Option String) :
    describeNamed a context name = describeNamed b context name := by
  rw [describeNamed, describeNamed]
  cases name with
  | none => rfl
  | some name =>
    have hfound := h.visibleType? context name
    rw [Option.bind_some, Option.bind_some]
    generalize a.visibleType? context name = found, b.visibleType? context name = found' at hfound
    cases hfound with
    | none => rfl
    | some htype => exact describeType_eq htype

theorem describeSchema_bound : describeSchema a context = describeSchema b context := by
  have hnames : a.types.map TypeDefOf.name = b.types.map TypeDefOf.name :=
    map_eq_of_forall₂ h.types fun htype => htype.name_eq
  have htypes : (a.types.filterMap fun type => a.visibleType? context type.name).map describeType =
      (b.types.filterMap fun type => b.visibleType? context type.name).map describeType := by
    have hseen := describeTypes_bound
      (forall₂_filterMap (h.visibleType? context) (a.types.map TypeDefOf.name))
    rw [List.filterMap_map, hnames, List.filterMap_map] at hseen
    exact hseen
  have hdirectives : a.directives.map (describeDirective a) =
      b.directives.map (describeDirective b) := by
    rw [← h.directives]
    refine List.map_congr_left fun directive _ => ?_
    rw [describeDirective, describeDirective,
      describeInputs_bound h (List.forall₂_same.mpr fun _ _ => .intro _ _ _ (.same _))]
  rw [describeSchema, describeSchema, htypes, hdirectives, describeNamed_bound h,
    describeNamed_bound h, describeNamed_bound h, h.queryType, h.mutationType, h.subscriptionType]

/-- Introspection fields are answered alike. -/
theorem answer_bound (enabled : Bool) {type other : TypeDef} (ht : type.Bound a other)
    (args : ResolverArgs) (field : MetaField) :
    answer a context enabled type args field = answer b context enabled other args field := by
  cases field with
  | typename => rw [answer, answer, ht.name_eq]
  | schema => rw [answer, answer, describeSchema_bound h]
  | type => rw [answer, answer, describeNamed_bound h]

/-- A listing gives the same of both schemas if it describes types alike. -/
theorem listing_bound {describe : Schema → Context → ResolverArgs → TypeDef → Option (List Json)}
    {args : ResolverArgs}
    (hs : ∀ type other, TypeDef.Bound a type other →
      describe a context args type = describe b context args other)
    (parent : Json) (info : ResolverInfo) :
    (listing describe).resolve parent args context { info with schema := some a } =
      (listing describe).resolve parent args context { info with schema := some b } := by
  simp only [listing, Option.bind_eq_bind, Option.bind_some]
  cases (parent.member? "name").bind Json.asText? with
  | none => rfl
  | some name =>
    have hfound := h.visibleType? context name
    rw [Option.bind_some, Option.bind_some]
    generalize a.visibleType? context name = found, b.visibleType? context name = found' at hfound
    cases hfound with
    | none => rfl
    | some htype => rw [Option.bind_some, Option.bind_some, hs _ _ htype]

theorem listings_bound {entry : String × Resolver} (hm : entry ∈ listings) (parent : Json)
    (args : ResolverArgs) (info : ResolverInfo) :
    entry.2.resolve parent args context { info with schema := some a } =
      entry.2.resolve parent args context { info with schema := some b } := by
  simp only [listings, List.mem_cons, List.not_mem_nil, or_false] at hm
  rcases hm with rfl | rfl | rfl | rfl | rfl
  · exact listing_bound h context (fun _ _ ht => describeFields_bound h ht _) parent info
  · exact listing_bound h context (fun _ _ ht => describeInterfaces_bound h context ht) parent info
  · exact listing_bound h context (fun _ _ ht => describePossibleTypes_bound h context ht) parent info
  · exact listing_bound h context (fun _ _ ht => describeEnumValues_bound ht _) parent info
  · exact listing_bound h context (fun _ _ ht => describeInputFields_bound h ht) parent info

end Introspection

end GraphQL
