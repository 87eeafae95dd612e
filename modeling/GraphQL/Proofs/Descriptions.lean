import GraphQL.Proofs.Concealment

/-!
# The descriptions of introspection have their declared types

Introspection describes a schema in JSON, declares types for the descriptions, and reads most of
their fields off the JSON by name. So each field that is declared has to be a member of the
descriptions, with a value of its declared type; what belongs to a type is listed by resolvers whose
items are descriptions again. The schema is one that has been built from the standard schema, in
which every name refers to a type.
-/

namespace GraphQL

namespace Named

variable {α : Type} [Named α]

theorem mem_put {item other : α} {items : List α} (h : other ∈ put item items) :
    other = item ∨ other ∈ items := by
  induction items with
  | nil => exact .inl (List.mem_singleton.mp h)
  | cons first rest ih =>
    rw [put] at h
    split at h
    · exact (List.mem_cons.mp h).imp_right (List.mem_cons_of_mem _)
    · rcases List.mem_cons.mp h with rfl | h
      · exact .inr List.mem_cons_self
      · exact (ih h).imp_right (List.mem_cons_of_mem _)

/-- An item of another name is added behind those that come first. -/
theorem put_prefix {item : α} {first items : List α} (h : first <+: items)
    (hn : name item ∉ first.map name) : first <+: put item items := by
  induction first generalizing items with
  | nil => exact List.nil_prefix
  | cons head rest ih =>
    obtain ⟨tail, rfl⟩ := h
    simp only [List.map_cons, List.mem_cons, not_or] at hn
    obtain ⟨hhead, hrest⟩ := hn
    rw [List.cons_append, put, if_neg (Ne.symm hhead)]
    exact List.cons_prefix_cons.mpr ⟨rfl, ih (List.prefix_append _ _) hrest⟩

end Named

namespace Schema

/-- The name begins with two underscores. -/
def Reserved (name : String) : Prop := "__".toList <+: name.toList

instance (name : String) : Decidable (Reserved name) :=
  inferInstanceAs (Decidable ("__".toList <+: name.toList))

/-- The schemas that can be made from the standard one, if no name of a standard type is given to
another type and no reserved name to a field. -/
inductive Built : Schema → Prop where
  | standard : Built .standard
  | queryType {schema : Schema} (h : Built schema) (name : String) :
      Built { schema with queryType := some name }
  | mutationType {schema : Schema} (h : Built schema) (name : String) :
      Built { schema with mutationType := some name }
  | subscriptionType {schema : Schema} (h : Built schema) (name : String) :
      Built { schema with subscriptionType := some name }
  | addType {schema : Schema} (h : Built schema) {definition : TypeDef}
      (hn : definition.name ∉ standard.types.map TypeDefOf.name)
      (hf : ∀ field ∈ definition.fields?.getD [], ¬ Reserved field.name) :
      Built (schema.addType definition)
  | addDirective {schema : Schema} (h : Built schema) (definition : DirectiveDef) :
      Built (schema.addDirective definition)
  | setTypeResolver {schema : Schema} (h : Built schema) (name : String) (resolver : TypeResolver) :
      Built (schema.setTypeResolver name resolver)
  | visibility {schema : Schema} (h : Built schema) (visible : Visibility) :
      Built { schema with visibility := some visible }

namespace Built

variable {schema : Schema} (h : schema.Built)

include h

theorem standard_prefix : Schema.standard.types <+: schema.types := by
  induction h with
  | standard => exact List.prefix_refl _
  | addType _ hn _ ih => exact Named.put_prefix ih hn
  | _ => assumption

theorem not_reserved :
    ∀ type ∈ schema.types, ∀ field ∈ type.fields?.getD [], ¬ Reserved field.name := by
  induction h with
  | standard => decide
  | addType _ _ hf ih =>
    intro type hm
    rcases Named.mem_put hm with rfl | hm
    · exact hf
    · exact ih type hm
  | _ => assumption

theorem type?_standard : ∀ type ∈ Schema.standard.types, schema.type? type.name = some type := by
  obtain ⟨rest, hrest⟩ := h.standard_prefix
  have hstandard : ∀ type ∈ Schema.standard.types,
      Schema.standard.types.find? (fun other => Named.name other = type.name) = some type := by
    simp only [Schema.standard, builtinScalars, Introspection.types, List.map_cons, List.map_nil,
      List.cons_append, List.nil_append, List.forall_mem_cons]
    exact ⟨rfl, rfl, rfl, rfl, rfl, rfl, rfl, rfl, rfl, rfl, rfl, rfl, rfl, List.forall_mem_nil _⟩
  intro type hm
  rw [type?, Named.find?, ← hrest, List.find?_append, hstandard type hm, Option.some_or]

/-- A request sees the standard types unless the visibility hides them. -/
theorem visibleType?_standard {context : Context}
    (hv : ∀ visible, schema.visibility = some visible →
      ∀ type ∈ Schema.standard.types, visible type context = true) :
    ∀ type ∈ Schema.standard.types, schema.visibleType? context type.name = some type := by
  intro type hm
  unfold visibleType?
  rw [h.type?_standard type hm]
  cases hvisible : schema.visibility with
  | none => rfl
  | some visible => exact if_pos (hv visible hvisible type hm)

/-- No type has a field of its own of a reserved name. -/
theorem field?_reserved {owner : ObjectDef} (hm : .object owner ∈ schema.types) {name : String}
    (hr : Reserved name) (definition : FieldDef) :
    schema.field? (.object owner) name ≠ some (.ordinary definition) := by
  intro hf
  have hfield := h.not_reserved _ hm definition (mem_fields_of_ordinary hf)
  rw [name_of_ordinary hf] at hfield
  exact hfield hr

end Built

/-- The names to which the reference refers are those of registered types. -/
def Registers (schema : Schema) (ref : TypeRef) : Prop :=
  ∀ name, ref.refersTo name = true → ∃ definition, schema.type? name = some definition

theorem Registers.of_baseName {schema : Schema} {ref : TypeRef}
    (h : ∃ definition, schema.type? ref.baseName = some definition) : schema.Registers ref := by
  intro name hr
  have hname : ref.baseName = name := by
    clear h
    induction ref with
    | resolved definition => cases hr
    | late other => exact of_decide_eq_true hr
    | list item ih => exact ih hr
    | nonNull inner ih => exact ih hr
  exact hname ▸ h

/-- Every name to which a field, an argument, an input field or an argument of a directive refers is
that of a registered type. -/
structure Complete (schema : Schema) : Prop where
  types : ∀ type ∈ schema.types, ∀ ref ∈ type.refs, schema.Registers ref
  directives : ∀ directive ∈ schema.directives, ∀ argument ∈ directive.arguments,
    schema.Registers argument.type

/-- A complete schema whose query root the request sees. -/
structure Describable (schema : Schema) (context : Context) : Prop extends schema.Complete where
  root : ∃ name type, schema.queryType = some name ∧ schema.visibleType? context name = some type

end Schema

namespace Introspection

/-- The values of the types by which a schema is described. -/
inductive Describes (schema : Schema) (context : Context) : String → Json → Prop where
  | text (text : String) : Describes schema context "String" (.str text)
  | truth (truth : Bool) : Describes schema context "Boolean" (.bool truth)
  | kind {kind : String} (h : kind ∈ typeKinds) : Describes schema context "__TypeKind" (.str kind)
  | location (location : DirectiveLocation) :
      Describes schema context "__DirectiveLocation" (.str location.text)
  | schema : Describes schema context "__Schema" (describeSchema schema context)
  | type {ref : TypeRef} (h : schema.Registers ref) :
      Describes schema context "__Type" (describeRef schema ref)
  | field {field : FieldDef} (ht : schema.Registers field.type)
      (ha : ∀ argument ∈ field.arguments, schema.Registers argument.type) :
      Describes schema context "__Field" (describeField schema field)
  | input {input : InputFieldDef} (h : schema.Registers input.type) :
      Describes schema context "__InputValue" (describeInput schema input)
  | enumValue (value : EnumValueDef) :
      Describes schema context "__EnumValue" (describeEnumValue value)
  | directive {directive : DirectiveDef}
      (ha : ∀ argument ∈ directive.arguments, schema.Registers argument.type) :
      Describes schema context "__Directive" (describeDirective schema directive)

/-- Values of a type that is built from the types of descriptions. -/
inductive Fits (schema : Schema) (context : Context) : TypeRef → Json → Prop where
  | null {type : TypeRef} (hn : type.isNonNull = false) : Fits schema context type .null
  | nonNull {inner : TypeRef} {value : Json} (hv : value ≠ .null)
      (h : Fits schema context inner value) : Fits schema context (.nonNull inner) value
  | list {item : TypeRef} {items : List Json}
      (each : ∀ value ∈ items, Fits schema context item value) :
      Fits schema context (.list item) (.arr items)
  | late {name : String} {value : Json} (h : Describes schema context name value) :
      Fits schema context (.late name) value
  | resolved {definition : TypeDef} {value : Json}
      (hv : schema.visibleType? context definition.name = some definition)
      (h : Describes schema context definition.name value) :
      Fits schema context (.resolved definition) value

variable {schema : Schema} {context : Context} {name : String} {value : Json}

theorem describeRef_ne_null (ref : TypeRef) : describeRef schema ref ≠ .null := by
  intro he
  cases ref with
  | late name =>
    rw [describeRef] at he
    split at he <;> cases he
  | _ => cases he

theorem Describes.ne_null (h : Describes schema context name value) : value ≠ .null := by
  cases h with
  | type => exact describeRef_ne_null _
  | _ => exact fun he => nomatch he

namespace Fits

theorem required (h : Describes schema context name value) :
    Fits schema context (.required name) value :=
  .nonNull h.ne_null (.late h)

theorem ofText? (text : Option String) : Fits schema context optionalText (.ofText? text) := by
  cases text with
  | none => exact .null rfl
  | some text => exact .late (.text text)

theorem optionalList {items : List Json} (h : ∀ item ∈ items, Describes schema context name item) :
    Fits schema context (optionalList name) (.arr items) :=
  .list fun item hm => required (h item hm)

theorem requiredList {items : List Json} (h : ∀ item ∈ items, Describes schema context name item) :
    Fits schema context (requiredList name) (.arr items) :=
  .nonNull (fun he => nomatch he) (optionalList h)

theorem nullable {type : TypeRef} (h : Fits schema context type .null) :
    type.isNonNull = false := by
  cases h with
  | null hn => exact hn
  | nonNull hv => exact absurd rfl hv
  | _ => rfl

/-- A reference whose outermost name has been looked up has the same values. -/
theorem resolve {type resolved : TypeRef} (h : Fits schema context type value)
    (hr : schema.resolve context type = .ok resolved) : Fits schema context resolved value := by
  cases type with
  | late name =>
    rw [Schema.resolve] at hr
    split at hr
    · next definition hv =>
      obtain rfl := Except.ok.inj hr
      cases h with
      | null hn => exact .null rfl
      | late h =>
        obtain rfl := Schema.name_of_type (Schema.type?_of_visible hv)
        exact .resolved hv h
    · cases hr
  | _ =>
    obtain rfl := Except.ok.inj hr
    exact h

end Fits

/-- The field is read off the value by its name, and has its declared type. -/
def Reads (schema : Schema) (context : Context) (value : Json) (field : FieldDef) : Prop :=
  ∃ read, Property.read value field.name = .ok read ∧ Fits schema context field.type read

theorem kind_mem {ρ : Type} (type : TypeDefOf ρ) : type.kind ∈ typeKinds := by
  cases type <;> simp [TypeDefOf.kind, typeKinds]

/-- The members of the description of a reference. -/
theorem members_describeRef {ref : TypeRef} (h : schema.Registers ref) :
    ∃ kind ∈ typeKinds, ∃ name description ofType,
      describeRef schema ref =
        typeObject (.str kind) (.ofText? name) (.ofText? description) ofType ∧
      Fits schema context (.late "__Type") ofType := by
  cases ref with
  | resolved type => exact ⟨_, kind_mem type, some type.name, _, _, rfl, .null rfl⟩
  | late name =>
    obtain ⟨type, ht⟩ := h name (by simp [TypeRef.refersTo])
    rw [describeRef, ht]
    exact ⟨_, kind_mem type, some type.name, _, _, rfl, .null rfl⟩
  | list item => exact ⟨"LIST", by decide, none, none, _, rfl, .late (.type h)⟩
  | nonNull inner => exact ⟨"NON_NULL", by decide, none, none, _, rfl, .late (.type h)⟩

/-- The description of a named type. -/
theorem Describes.named (type : TypeDef) :
    Describes schema context "__Type" (describeType type) := by
  have h : schema.Registers (.resolved type) := fun _ h => nomatch h
  exact .type h

theorem Fits.named (name : Option String) :
    Fits schema context (.late "__Type") (describeNamed schema context name) := by
  rw [describeNamed]
  split
  · exact .late (.named _)
  · exact .null rfl

theorem describes_inputs {arguments : List InputFieldDef}
    (h : ∀ argument ∈ arguments, schema.Registers argument.type) :
    ∀ item ∈ arguments.map (describeInput schema),
      Describes schema context "__InputValue" item := by
  intro item hm
  obtain ⟨argument, ha, rfl⟩ := List.mem_map.mp hm
  exact .input (h argument ha)

/-! ### What is read off descriptions -/

theorem reads_input {input : InputFieldDef} (h : schema.Registers input.type) :
    ∀ field ∈ inputValueType.fields,
      Reads schema context (describeInput schema input) field := by
  simp only [inputValueType, List.forall_mem_cons]
  exact ⟨⟨_, rfl, .required (.text _)⟩, ⟨_, rfl, .ofText? _⟩, ⟨_, rfl, .required (.type h)⟩,
    ⟨_, rfl, .ofText? _⟩, List.forall_mem_nil _⟩

theorem reads_enumValue (value : EnumValueDef) :
    ∀ field ∈ enumValueType.fields, Reads schema context (describeEnumValue value) field := by
  simp only [enumValueType, List.forall_mem_cons]
  exact ⟨⟨_, rfl, .required (.text _)⟩, ⟨_, rfl, .ofText? _⟩, ⟨_, rfl, .required (.truth _)⟩,
    ⟨_, rfl, .ofText? _⟩, List.forall_mem_nil _⟩

theorem reads_field {described : FieldDef} (ht : schema.Registers described.type)
    (ha : ∀ argument ∈ described.arguments, schema.Registers argument.type) :
    ∀ field ∈ fieldType.fields, Reads schema context (describeField schema described) field := by
  simp only [fieldType, List.forall_mem_cons]
  exact ⟨⟨_, rfl, .required (.text _)⟩, ⟨_, rfl, .ofText? _⟩,
    ⟨_, rfl, .requiredList (describes_inputs ha)⟩, ⟨_, rfl, .required (.type ht)⟩,
    ⟨_, rfl, .required (.truth _)⟩, ⟨_, rfl, .ofText? _⟩, List.forall_mem_nil _⟩

theorem reads_directive {directive : DirectiveDef}
    (ha : ∀ argument ∈ directive.arguments, schema.Registers argument.type) :
    ∀ field ∈ directiveType.fields,
      Reads schema context (describeDirective schema directive) field := by
  have hlocations : ∀ item ∈ directive.locations.map fun location => Json.str location.text,
      Describes schema context "__DirectiveLocation" item := by
    intro item hm
    obtain ⟨location, -, rfl⟩ := List.mem_map.mp hm
    exact .location location
  simp only [directiveType, List.forall_mem_cons]
  exact ⟨⟨_, rfl, .required (.text _)⟩, ⟨_, rfl, .ofText? _⟩, ⟨_, rfl, .required (.truth _)⟩,
    ⟨_, rfl, .requiredList hlocations⟩, ⟨_, rfl, .requiredList (describes_inputs ha)⟩,
    List.forall_mem_nil _⟩

/-- The root of queries is described if the request sees it. -/
theorem reads_schema (h : schema.Describable context) :
    ∀ field ∈ schemaType.fields, Reads schema context (describeSchema schema context) field := by
  have htypes : ∀ item ∈ (schema.types.filterMap fun type =>
      schema.visibleType? context type.name).map describeType,
        Describes schema context "__Type" item := by
    intro item hm
    obtain ⟨type, -, rfl⟩ := List.mem_map.mp hm
    exact .named type
  have hdirectives : ∀ item ∈ schema.directives.map (describeDirective schema),
      Describes schema context "__Directive" item := by
    intro item hm
    obtain ⟨directive, hd, rfl⟩ := List.mem_map.mp hm
    exact .directive (h.directives directive hd)
  have hquery : Fits schema context (.required "__Type")
      (describeNamed schema context schema.queryType) := by
    obtain ⟨name, type, hq, hv⟩ := h.root
    have hnamed : describeNamed schema context schema.queryType = describeType type := by
      rw [describeNamed, hq, Option.bind_some, hv]
    exact hnamed ▸ .required (.named type)
  simp only [schemaType, List.forall_mem_cons]
  exact ⟨⟨_, rfl, .null rfl⟩, ⟨_, rfl, .requiredList htypes⟩, ⟨_, rfl, hquery⟩,
    ⟨_, rfl, .named _⟩, ⟨_, rfl, .named _⟩, ⟨_, rfl, .requiredList hdirectives⟩,
    List.forall_mem_nil _⟩

/-- Descriptions have no member of this name, nor one of its name in snake case. -/
theorem read_specifiedByURL (kind name description ofType : Json) :
    Property.read (typeObject kind name description ofType) "specifiedByURL" = .ok .null := by
  have hsnake : Text.snakeCase "specifiedByURL" = "specified_by_u_r_l" := by decide +kernel
  simp [Property.read, typeObject, Members.get?, hsnake]

/-- What a type has of its own is read off its description, the rest is listed. -/
theorem reads_type {ref : TypeRef} (h : schema.Registers ref) :
    ∀ field ∈ typeType.fields, field.name ∉ listings.map Prod.fst →
      Reads schema context (describeRef schema ref) field := by
  obtain ⟨kind, hk, name, description, ofType, hdescribe, hinner⟩ := members_describeRef h
  rw [hdescribe]
  simp only [typeType, List.forall_mem_cons]
  refine ⟨fun _ => ⟨_, rfl, .required (.kind hk)⟩, fun _ => ⟨_, rfl, .ofText? _⟩,
    fun _ => ⟨_, rfl, .ofText? _⟩, fun _ => ⟨_, read_specifiedByURL .., .null rfl⟩,
    fun hn => absurd ?_ hn,
    fun hn => absurd ?_ hn, fun hn => absurd ?_ hn, fun hn => absurd ?_ hn,
    fun hn => absurd ?_ hn, fun _ => ⟨_, rfl, hinner⟩, List.forall_mem_nil _⟩
  all_goals simp [listings]

/-! ### What is listed -/

/-- A resolver that lists descriptions gives a list of them, or null. -/
theorem listing_fits {describe : Schema → Context → ResolverArgs → TypeDef → Option (List Json)}
    {args : ResolverArgs}
    (hd : ∀ type ∈ schema.types, ∀ items, describe schema context args type = some items →
      ∀ item ∈ items, Describes schema context name item) (parent : Json) {info : ResolverInfo}
    (hs : info.schema = some schema) :
    ∃ value, (listing describe).resolve parent args context info = .ready (.value value) ∧
      Fits schema context (Introspection.optionalList name) value := by
  refine ⟨_, rfl, ?_⟩
  split
  · next items hitems =>
    rw [hs] at hitems
    obtain ⟨other, hother, hitems⟩ := Option.bind_eq_some_iff.mp hitems
    obtain rfl := Option.some.inj hother
    obtain ⟨typeName, -, hitems⟩ := Option.bind_eq_some_iff.mp hitems
    obtain ⟨type, hv, hitems⟩ := Option.bind_eq_some_iff.mp hitems
    have hm : type ∈ schema.types := List.mem_of_find?_eq_some (Schema.type?_of_visible hv)
    exact .optionalList (hd type hm items hitems)
  · exact .null rfl

theorem describes_fields (hc : schema.Complete) {type : TypeDef} (ht : type ∈ schema.types)
    {deprecatedToo : Bool} {items : List Json}
    (h : describeFields schema deprecatedToo type = some items) :
    ∀ item ∈ items, Describes schema context "__Field" item := by
  obtain ⟨fields, hfields, rfl⟩ := Option.map_eq_some_iff.mp h
  intro item hm
  obtain ⟨field, hf, rfl⟩ := List.mem_map.mp hm
  obtain ⟨htype, harguments⟩ := TypeDefOf.refs_field hfields (List.mem_filter.mp hf).1
  exact .field (hc.types type ht _ htype) fun argument ha =>
    hc.types type ht _ (harguments argument ha)

theorem describes_inputFields (hc : schema.Complete) {type : TypeDef} (ht : type ∈ schema.types)
    {items : List Json} (h : describeInputFields schema type = some items) :
    ∀ item ∈ items, Describes schema context "__InputValue" item := by
  cases type with
  | inputObject definition =>
    obtain rfl := Option.some.inj h
    refine describes_inputs fun argument ha => hc.types _ ht _ ?_
    exact List.mem_map_of_mem ha
  | _ => cases h

theorem describes_enumValues {deprecatedToo : Bool} {type : TypeDef} {items : List Json}
    (h : describeEnumValues deprecatedToo type = some items) :
    ∀ item ∈ items, Describes schema context "__EnumValue" item := by
  cases type with
  | enum definition =>
    obtain rfl := Option.some.inj h
    intro item hm
    obtain ⟨value, -, rfl⟩ := List.mem_map.mp hm
    exact .enumValue value
  | _ => cases h

theorem describes_types {types : List TypeDef} :
    ∀ item ∈ types.map describeType, Describes schema context "__Type" item := by
  intro item hm
  obtain ⟨type, -, rfl⟩ := List.mem_map.mp hm
  exact .named type

/-- The fields of `__Type` are told apart by their names. -/
theorem find?_typeType {field : FieldDef} (hf : field ∈ typeType.fields) :
    typeType.fields.find? (fun other => other.name = field.name) = some field := by
  revert field
  simp only [typeType, List.forall_mem_cons]
  exact ⟨rfl, rfl, rfl, rfl, rfl, rfl, rfl, rfl, rfl, rfl, List.forall_mem_nil _⟩

/-- What belongs to a type is listed with the types that are declared for it. -/
theorem listings_fit (hc : schema.Complete) {entry : String × Resolver} (he : entry ∈ listings)
    {field : FieldDef} (hf : field ∈ typeType.fields) (hn : entry.1 = field.name) (parent : Json)
    (args : ResolverArgs) {info : ResolverInfo} (hs : info.schema = some schema) :
    ∃ value, entry.2.resolve parent args context info = .ready (.value value) ∧
      Fits schema context field.type value := by
  have hname : typeType.fields.find? (fun other => other.name = entry.1) = some field :=
    hn ▸ find?_typeType hf
  simp only [listings, List.mem_cons, List.not_mem_nil, or_false] at he
  rcases he with rfl | rfl | rfl | rfl | rfl
  · obtain rfl := Option.some.inj hname
    exact listing_fits (fun type ht items h => describes_fields hc ht h) parent hs
  · obtain rfl := Option.some.inj hname
    refine listing_fits (fun type ht items h => ?_) parent hs
    obtain ⟨names, -, rfl⟩ := Option.map_eq_some_iff.mp h
    exact describes_types
  · obtain rfl := Option.some.inj hname
    refine listing_fits (fun type ht items h => ?_) parent hs
    rw [describePossibleTypes] at h
    split at h
    · obtain rfl := Option.some.inj h
      exact describes_types
    · cases h
  · obtain rfl := Option.some.inj hname
    exact listing_fits (fun type ht items h => describes_enumValues h) parent hs
  · obtain rfl := Option.some.inj hname
    exact listing_fits (fun type ht items h => describes_inputFields hc ht h) parent hs

/-! ### What is answered -/

theorem mem_standard_object {owner : ObjectDef} : .object owner ∈ Schema.standard.types ↔
    owner ∈ [schemaType, typeType, fieldType, inputValueType, enumValueType, directiveType] := by
  simp [Schema.standard, builtinScalars, Introspection.types]

/-- The standard type of a description is an object type, or a leaf type whose coercion does not
change it. -/
theorem Describes.standard (h : Describes schema context name value) :
    ∃ type ∈ Schema.standard.types, type.name = name ∧
      ((∃ owner, type = .object owner) ∨
        (∃ definition, type = .scalar definition ∧ definition.name ∈ builtinScalars ∧
          ∀ coercers, Members.get? definition.name coercers = none →
            Leaf.coerce coercers (.scalar definition) value = .ok value) ∨
        ∃ definition, type = .enum definition ∧
          ∀ coercers, Leaf.coerce coercers (.enum definition) value = .ok value) := by
  have hscalar : ∀ name ∈ builtinScalars,
      .scalar { name, description := some ("Built-in " ++ name ++ " scalar") } ∈
        Schema.standard.types := fun name hm => List.mem_append_left _ (List.mem_map_of_mem hm)
  have henum : ∀ kinds ∈ [enumOf "__TypeKind" typeKinds, enumOf "__DirectiveLocation"
      (DirectiveLocation.all.map DirectiveLocation.text)],
        .enum kinds ∈ Schema.standard.types := by
    simp [Schema.standard, Introspection.types]
  have hobject : ∀ {owner : ObjectDef}, owner ∈ [schemaType, typeType, fieldType, inputValueType,
      enumValueType, directiveType] → .object owner ∈ Schema.standard.types :=
    mem_standard_object.mpr
  cases h with
  | text text =>
    refine ⟨_, hscalar "String" (by decide), rfl, .inr (.inl ⟨_, rfl, by decide, fun _ hn => ?_⟩)⟩
    rw [Leaf.coerce, Leaf.coerceScalar, hn]
    rfl
  | truth truth =>
    refine ⟨_, hscalar "Boolean" (by decide), rfl, .inr (.inl ⟨_, rfl, by decide, fun _ hn => ?_⟩)⟩
    rw [Leaf.coerce, Leaf.coerceScalar, hn]
    rfl
  | kind hk =>
    refine ⟨_, henum _ List.mem_cons_self, rfl, .inr (.inr ⟨_, rfl, fun _ => ?_⟩)⟩
    exact if_pos ((by decide : ∀ kind ∈ typeKinds,
      (enumOf "__TypeKind" typeKinds).hasValue kind = true) _ hk)
  | location location =>
    refine ⟨_, henum _ (List.mem_cons_of_mem _ List.mem_cons_self), rfl,
      .inr (.inr ⟨_, rfl, fun _ => ?_⟩)⟩
    cases location <;> rfl
  | schema => exact ⟨_, hobject (by simp : schemaType ∈ _), rfl, .inl ⟨_, rfl⟩⟩
  | type => exact ⟨_, hobject (by simp : typeType ∈ _), rfl, .inl ⟨_, rfl⟩⟩
  | field => exact ⟨_, hobject (by simp : fieldType ∈ _), rfl, .inl ⟨_, rfl⟩⟩
  | input => exact ⟨_, hobject (by simp : inputValueType ∈ _), rfl, .inl ⟨_, rfl⟩⟩
  | enumValue => exact ⟨_, hobject (by simp : enumValueType ∈ _), rfl, .inl ⟨_, rfl⟩⟩
  | directive => exact ⟨_, hobject (by simp : directiveType ∈ _), rfl, .inl ⟨_, rfl⟩⟩

/-- The fields of a standard type are read off its values, unless resolvers list them. -/
theorem Describes.reads (hs : schema.Describable context) {owner : ObjectDef}
    (ho : .object owner ∈ Schema.standard.types) (h : Describes schema context owner.name value)
    {field : FieldDef} (hf : field ∈ owner.fields)
    (hn : owner.name = "__Type" → field.name ∉ listings.map Prod.fst) :
    Reads schema context value field := by
  have howner := mem_standard_object.mp ho
  simp only [List.mem_cons, List.not_mem_nil, or_false] at howner
  generalize hname : owner.name = name at h
  rcases howner with rfl | rfl | rfl | rfl | rfl | rfl
  · cases h with
    | schema => exact reads_schema hs field hf
    | _ => exact absurd hname (by decide)
  · cases h with
    | type h => exact reads_type h field hf (hn rfl)
    | _ => exact absurd hname (by decide)
  · cases h with
    | field ht ha => exact reads_field ht ha field hf
    | _ => exact absurd hname (by decide)
  · cases h with
    | input h => exact reads_input h field hf
    | _ => exact absurd hname (by decide)
  · cases h with
    | enumValue value => exact reads_enumValue value field hf
    | _ => exact absurd hname (by decide)
  · cases h with
    | directive ha => exact reads_directive ha field hf
    | _ => exact absurd hname (by decide)

theorem resolver?_listing {entry : String × Resolver} (he : entry ∈ listings) :
    Registry.standard.resolver? "__Type" entry.1 = some (entry.2, .registered) := by
  simp only [listings, List.mem_cons, List.not_mem_nil, or_false] at he
  rcases he with rfl | rfl | rfl | rfl | rfl <;> rfl

theorem resolver?_property {type : TypeDef} (ht : type ∈ Schema.standard.types) {field : FieldDef}
    (hf : field ∈ type.fields?.getD [])
    (hn : type.name = "__Type" → field.name ∉ listings.map Prod.fst) :
    Registry.standard.resolver? type.name field.name = some (Property.resolver, .fallback) := by
  have hkeys : ∀ type ∈ Schema.standard.types, ∀ field ∈ type.fields?.getD [],
      (type.name = "__Type" → field.name ∉ listings.map Prod.fst) →
        Registry.fieldKey type.name field.name ∉ Registry.standard.resolvers.map Prod.fst := by
    decide +kernel
  unfold Registry.resolver?
  split
  · next resolver hg =>
    exact absurd (List.mem_map_of_mem (Members.mem_of_get? hg)) (hkeys type ht field hf hn)
  · rfl

/-- A field of a standard type has a resolver, and what this gives of a value is of the declared
type of the field. -/
theorem Describes.answers (hs : schema.Describable context) {owner : ObjectDef}
    (ho : .object owner ∈ Schema.standard.types) (h : Describes schema context owner.name value)
    {field : FieldDef} (hf : field ∈ owner.fields) (args : ResolverArgs) (info : ResolverInfo)
    (hinfo : info.schema = some schema) (hname : info.fieldName = field.name) :
    ∃ resolver source, Registry.standard.resolver? owner.name field.name = some (resolver, source) ∧
      ∃ answer, resolver.resolve value args context info = .ready (.value answer) ∧
        Fits schema context field.type answer := by
  by_cases hl : owner.name = "__Type" ∧ field.name ∈ listings.map Prod.fst
  · obtain ⟨howner, hm⟩ := hl
    obtain ⟨entry, he, hentry⟩ := List.mem_map.mp hm
    obtain rfl : owner = typeType := by
      have hall := mem_standard_object.mp ho
      simp only [List.mem_cons, List.not_mem_nil, or_false] at hall
      rcases hall with rfl | rfl | rfl | rfl | rfl | rfl
      · exact absurd howner (by decide)
      · rfl
      all_goals exact absurd howner (by decide)
    exact ⟨entry.2, .registered, hentry ▸ resolver?_listing he,
      listings_fit hs.toComplete he hf hentry value args hinfo⟩
  · have hn : owner.name = "__Type" → field.name ∉ listings.map Prod.fst :=
      fun howner hm => hl ⟨howner, hm⟩
    obtain ⟨answer, hread, hfits⟩ := h.reads hs ho hf hn
    refine ⟨Property.resolver, .fallback, resolver?_property ho hf hn, answer, ?_, hfits⟩
    change Reply.ofResult (Property.read value info.fieldName) = _
    rw [hname, hread]
    rfl

/-- So is what introspection itself answers, where it is enabled. -/
theorem answer_fits (type : TypeDef) (args : ResolverArgs) (field : MetaField) :
    ∃ value, answer schema context true type args field = .value value ∧
      Fits schema context field.definition.type value := by
  cases field with
  | schema => exact ⟨_, rfl, .required .schema⟩
  | type => exact ⟨_, rfl, .named _⟩
  | typename => exact ⟨_, rfl, .required (.text _)⟩

end Introspection

end GraphQL
