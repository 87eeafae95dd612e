import GraphQL.Introspection.Resolvers
import GraphQL.Proofs.Following
import GraphQL.Proofs.Lockstep

/-!
# Hidden definitions

Two schemas that differ in the definition of one type, which the request does not see. Whatever is
looked up as the request sees it is the same in both: the types, the fields that are selected on a
visible type and the descriptions of introspection. Only the description of a late reference is not
looked up in this way; it gives the kind and the description of the type it refers to.
-/

namespace GraphQL

namespace TypeRef

/-- True of late references to a name, also inside of lists and non-null types. -/
def refersTo (name : String) : TypeRef → Bool
  | late other => other = name
  | resolved _ => false
  | list item => item.refersTo name
  | nonNull inner => inner.refersTo name

end TypeRef

namespace TypeDefOf

variable {ρ : Type}

/-- The references in the definition of a type. -/
def refs : TypeDefOf ρ → List ρ
  | object definition => definition.fields.flatMap fun field =>
    field.type :: field.arguments.map InputFieldDefOf.type
  | interface definition => definition.fields.flatMap fun field =>
    field.type :: field.arguments.map InputFieldDefOf.type
  | inputObject definition => definition.fields.map InputFieldDefOf.type
  | _ => []

theorem refs_field {type : TypeDefOf ρ} {fields : List (FieldDefOf ρ)} {field : FieldDefOf ρ}
    (ht : type.fields? = some fields) (hf : field ∈ fields) :
    field.type ∈ type.refs ∧ ∀ argument ∈ field.arguments, argument.type ∈ type.refs := by
  have hrefs : type.refs = fields.flatMap fun field =>
      field.type :: field.arguments.map InputFieldDefOf.type := by
    cases type with
    | object definition => rw [← Option.some.inj ht, refs]
    | interface definition => rw [← Option.some.inj ht, refs]
    | _ => cases ht
  rw [hrefs]
  refine ⟨List.mem_flatMap.mpr ⟨field, hf, List.mem_cons_self⟩, fun argument ha => ?_⟩
  exact List.mem_flatMap.mpr
    ⟨field, hf, List.mem_cons_of_mem _ (List.mem_map_of_mem ha)⟩

end TypeDefOf

namespace Schema

/-- A reference to a name that introspection may describe: of a visible type or of a directive. -/
def RefersTo (schema : Schema) (context : Context) (name : String) : Prop :=
  (∃ other type, schema.visibleType? context other = some type ∧
    ∃ ref ∈ type.refs, ref.refersTo name = true) ∨
  ∃ directive ∈ schema.directives, ∃ argument ∈ directive.arguments,
    argument.type.refersTo name = true

/-- The schemas are equal but for the definition of one name, which is hidden in both. -/
structure DiffersAt (a b : Schema) (context : Context) (name : String) : Prop where
  queryType : a.queryType = b.queryType
  mutationType : a.mutationType = b.mutationType
  subscriptionType : a.subscriptionType = b.subscriptionType
  directives : a.directives = b.directives
  typeResolvers : a.typeResolvers = b.typeResolvers
  visibility : a.visibility = b.visibility
  types : List.Forall₂ (fun one other => one = other ∨ one.name = name ∧ other.name = name)
    a.types b.types
  hidden : a.visibleType? context name = none ∧ b.visibleType? context name = none

theorem name_of_type {schema : Schema} {name : String} {type : TypeDef}
    (h : schema.type? name = some type) : type.name = name := by
  simpa [Named.name] using List.find?_some h

namespace DiffersAt

variable {a b : Schema} {context : Context} {name : String}

/-- Types that are the same in both schemas, or are those that differ. -/
theorem type?_related (h : a.DiffersAt b context name) (other : String) :
    Option.Rel (fun one other => one = other ∨ one.name = name ∧ other.name = name)
      (a.type? other) (b.type? other) := by
  refine forall₂_find? h.types fun hsame => ?_
  rcases hsame with rfl | ⟨hone, hother⟩
  · rfl
  · simp [Named.name, hone, hother]

theorem type?_eq (h : a.DiffersAt b context name) {other : String} (hn : other ≠ name) :
    a.type? other = b.type? other := by
  have hfound := h.type?_related other
  cases ha : a.type? other with
  | none =>
    rw [ha] at hfound
    generalize b.type? other = found at hfound
    cases hfound
    rfl
  | some type =>
    rw [ha] at hfound
    generalize b.type? other = found at hfound
    cases hfound with
    | some hsame =>
      rcases hsame with rfl | ⟨hsecret, -⟩
      · rfl
      · exact absurd ((name_of_type ha).symm.trans hsecret) hn

/-- The members of a union are the same, or are those that differ. -/
theorem members_related (h : a.DiffersAt b context name) (members : List String) :
    List.Forall₂ (fun one other => one = other ∨ one.name = name ∧ other.name = name)
      (members.filterMap a.type?) (members.filterMap b.type?) :=
  forall₂_filterMap h.type?_related members

/-- The request sees the same types. -/
theorem visibleType?_eq (h : a.DiffersAt b context name) :
    a.visibleType? context = b.visibleType? context := by
  funext other
  by_cases hn : other = name
  · rw [hn, h.hidden.1, h.hidden.2]
  · rw [visibleType?, visibleType?, h.type?_eq hn, h.visibility]

theorem ne_of_visible (h : a.DiffersAt b context name) {other : String} {type : TypeDef}
    (hv : a.visibleType? context other = some type) : type.name ≠ name := by
  rintro rfl
  rw [name_of_type (type?_of_visible hv)] at h
  rw [h.hidden.1] at hv
  cases hv

theorem rootType_eq (h : a.DiffersAt b context name) (kind : OperationKind) :
    a.rootType context kind = b.rootType context kind := by
  have hname : a.rootName? kind = b.rootName? kind := by
    cases kind with
    | query => exact h.queryType
    | mutation => exact h.mutationType
    | subscription => exact h.subscriptionType
  rw [rootType, rootType, hname, h.visibleType?_eq]

theorem resolve_eq (h : a.DiffersAt b context name) (type : TypeRef) :
    a.resolve context type = b.resolve context type := by
  cases type with
  | late other => rw [resolve, resolve, h.visibleType?_eq]
  | _ => rfl

theorem field?_eq (h : a.DiffersAt b context name) (owner : TypeDef) (fieldName : String) :
    a.field? owner fieldName = b.field? owner fieldName := by
  have hroot : ∀ typeName, a.isQueryRoot typeName = b.isQueryRoot typeName := fun typeName => by
    rw [isQueryRoot, isQueryRoot, h.queryType]
  rw [field?, field?, hroot]

theorem isPossibleType_eq (h : a.DiffersAt b context name) (type : TypeDef) {other : String}
    (hn : other ≠ name) : a.isPossibleType type other = b.isPossibleType type other := by
  cases type with
  | interface definition => rw [isPossibleType, isPossibleType, h.type?_eq hn]
  | _ => rfl

/-- Visible types of a list stay, and the definitions that differ are not among them. -/
theorem visible_filter_eq (h : a.DiffersAt b context name) {types others : List TypeDef}
    (ht : List.Forall₂ (fun one other => one = other ∨ one.name = name ∧ other.name = name)
      types others) (keep : TypeDef → Bool) :
    (types.filter keep).filter (fun type => (a.visibleType? context type.name).isSome) =
      (others.filter keep).filter fun type => (b.visibleType? context type.name).isSome := by
  rw [← h.visibleType?_eq]
  induction ht with
  | nil => rfl
  | cons hsame _ ih =>
    rcases hsame with rfl | ⟨hone, hother⟩
    · simp only [List.filter_cons]
      split
      · simp only [List.filter_cons, ih]
      · exact ih
    · have hgone : ∀ (type : TypeDef) (rest : List TypeDef), type.name = name →
          (((type :: rest).filter keep).filter
            fun type => (a.visibleType? context type.name).isSome) =
          (rest.filter keep).filter fun type => (a.visibleType? context type.name).isSome := by
        intro type rest hname
        rw [List.filter_cons]
        split
        · rw [List.filter_cons, hname, h.hidden.1]
          simp
        · rfl
      rw [hgone _ _ hone, hgone _ _ hother, ih]

theorem applies_eq (h : a.DiffersAt b context name) (condition : String) {type : TypeDef}
    (hn : type.name ≠ name) :
    Gathering.applies a context condition type = Gathering.applies b context condition type := by
  rw [Gathering.applies, Gathering.applies, h.visibleType?_eq]
  cases b.visibleType? context condition with
  | none => rfl
  | some definition => dsimp only; rw [h.isPossibleType_eq definition hn]

/-- The same fields are selected on a type that is not the hidden one. -/
theorem collect_eq (h : a.DiffersAt b context name) (document : Document) {type : TypeDef}
    (hn : type.name ≠ name) (selections : List Selection) :
    Gathering.collect a document context type selections =
      Gathering.collect b document context type selections :=
  Gathering.collect_congr (shouldInclude_congr h.directives _)
    (fun condition => h.applies_eq condition hn) selections

end DiffersAt

/-- What a reference to the name gives away is the same in both schemas, or there is none. -/
def DescribesAlike (a b : Schema) (context : Context) (name : String) : Prop :=
  (a.type? name).map Introspection.describeType = (b.type? name).map Introspection.describeType ∨
    ¬ a.RefersTo context name

end Schema

namespace Introspection

variable {a b : Schema} {context : Context} {name : String}

theorem describeRef_late (schema : Schema) (other : String) :
    describeRef schema (.late other) =
      ((schema.type? other).map describeType).getD (typeObject .null (.str other) .null .null) := by
  rw [describeRef]
  cases schema.type? other <;> rfl

section

variable (h : a.DiffersAt b context name)

include h

theorem describeRef_eq {ref : TypeRef}
    (hd : (a.type? name).map describeType = (b.type? name).map describeType ∨
      ref.refersTo name = false) : describeRef a ref = describeRef b ref := by
  induction ref with
  | resolved type => rfl
  | list item ih => rw [describeRef, describeRef, ih hd]
  | nonNull inner ih => rw [describeRef, describeRef, ih hd]
  | late other =>
    rw [describeRef_late, describeRef_late]
    by_cases hn : other = name
    · subst hn
      rcases hd with hd | hd
      · rw [hd]
      · simp [TypeRef.refersTo] at hd
    · rw [h.type?_eq hn]

variable (hd : a.DescribesAlike b context name)

include hd

theorem describeRef_of_visible {other : String} {type : TypeDef}
    (hv : a.visibleType? context other = some type) {ref : TypeRef} (hr : ref ∈ type.refs) :
    describeRef a ref = describeRef b ref := by
  refine describeRef_eq h (hd.imp id fun hn => Bool.eq_false_iff.mpr fun hrefers => hn ?_)
  exact .inl ⟨other, type, hv, ref, hr, hrefers⟩

theorem describeFields_eq {other : String} {type : TypeDef}
    (hv : a.visibleType? context other = some type) (deprecatedToo : Bool) :
    describeFields a deprecatedToo type = describeFields b deprecatedToo type := by
  rw [describeFields, describeFields]
  cases hf : type.fields? with
  | none => rfl
  | some fields =>
    rw [Option.map_some, Option.map_some]
    congr 1
    refine List.map_congr_left fun field hm => ?_
    obtain ⟨htype, harguments⟩ := TypeDefOf.refs_field hf (List.mem_filter.mp hm).1
    have hinputs : field.arguments.map (describeInput a) =
        field.arguments.map (describeInput b) := by
      refine List.map_congr_left fun argument ha => ?_
      rw [describeInput, describeInput, describeRef_of_visible h hd hv (harguments argument ha)]
    rw [describeField, describeField, describeRef_of_visible h hd hv htype, hinputs]

theorem describeInputFields_eq {other : String} {type : TypeDef}
    (hv : a.visibleType? context other = some type) :
    describeInputFields a type = describeInputFields b type := by
  cases type with
  | inputObject definition =>
    rw [describeInputFields, describeInputFields]
    congr 1
    refine List.map_congr_left fun field hm => ?_
    rw [describeInput, describeInput,
      describeRef_of_visible h hd hv (List.mem_map_of_mem hm)]
  | _ => rfl

theorem describeDirective_eq {directive : DirectiveDef} (hm : directive ∈ a.directives) :
    describeDirective a directive = describeDirective b directive := by
  have hinputs : directive.arguments.map (describeInput a) =
      directive.arguments.map (describeInput b) := by
    refine List.map_congr_left fun argument ha => ?_
    rw [describeInput, describeInput,
      describeRef_eq h (hd.imp id fun hn => Bool.eq_false_iff.mpr fun hrefers => hn ?_)]
    exact .inr ⟨directive, hm, argument, ha, hrefers⟩
  rw [describeDirective, describeDirective, hinputs]

omit hd in
theorem describeNamed_eq (other : Option String) :
    describeNamed a context other = describeNamed b context other := by
  rw [describeNamed, describeNamed, h.visibleType?_eq]

omit hd in
theorem describeInterfaces_eq (type : TypeDef) :
    describeInterfaces a context type = describeInterfaces b context type := by
  rw [describeInterfaces, describeInterfaces, h.visibleType?_eq]

omit hd in
theorem describePossibleTypes_eq (type : TypeDef) :
    describePossibleTypes a context type = describePossibleTypes b context type := by
  cases type with
  | union definition =>
    exact congrArg (fun types => some (types.map describeType))
      (h.visible_filter_eq (h.members_related definition.members) TypeDefOf.isObject)
  | interface definition =>
    exact congrArg (fun types => some (types.map describeType))
      (h.visible_filter_eq h.types fun candidate => Schema.implements candidate definition.name)
  | _ => rfl

theorem describeSchema_eq : describeSchema a context = describeSchema b context := by
  have hnames : a.types.map TypeDefOf.name = b.types.map TypeDefOf.name :=
    map_eq_of_forall₂ h.types fun hsame => by
      rcases hsame with rfl | ⟨hone, hother⟩
      · rfl
      · rw [hone, hother]
  have htypes : (a.types.filterMap fun type => a.visibleType? context type.name) =
      b.types.filterMap fun type => b.visibleType? context type.name := by
    have hmap := congrArg (List.filterMap (a.visibleType? context)) hnames
    rw [List.filterMap_map, List.filterMap_map] at hmap
    rw [← h.visibleType?_eq]
    exact hmap
  have hdirectives : a.directives.map (describeDirective a) =
      b.directives.map (describeDirective b) := by
    rw [← h.directives]
    exact List.map_congr_left fun directive hm => describeDirective_eq h hd hm
  rw [describeSchema, describeSchema, htypes, hdirectives, describeNamed_eq h, describeNamed_eq h,
    describeNamed_eq h, h.queryType, h.mutationType, h.subscriptionType]

/-- Introspection fields are answered alike. -/
theorem answer_eq (enabled : Bool) (type : TypeDef) (args : ResolverArgs) (field : MetaField) :
    answer a context enabled type args field = answer b context enabled type args field := by
  cases field with
  | typename => rfl
  | schema => rw [answer, answer, describeSchema_eq h hd]
  | type => rw [answer, answer, describeNamed_eq h]

omit hd in
/-- A listing gives the same of both schemas if it describes the types that are seen alike. -/
theorem listing_eq {describe : Schema → Context → ResolverArgs → TypeDef → Option (List Json)}
    {args : ResolverArgs}
    (hs : ∀ other type, a.visibleType? context other = some type →
      describe a context args type = describe b context args type)
    (parent : Json) (info : ResolverInfo) :
    (listing describe).resolve parent args context { info with schema := some a } =
      (listing describe).resolve parent args context { info with schema := some b } := by
  simp only [listing, Option.bind_eq_bind, Option.bind_some]
  cases (parent.member? "name").bind Json.asText? with
  | none => rfl
  | some other =>
    rw [Option.bind_some, Option.bind_some, ← h.visibleType?_eq]
    cases hv : a.visibleType? context other with
    | none => rfl
    | some type => rw [Option.bind_some, Option.bind_some, hs other type hv]

theorem listings_eq {entry : String × Resolver} (hm : entry ∈ listings) (parent : Json)
    (args : ResolverArgs) (info : ResolverInfo) :
    entry.2.resolve parent args context { info with schema := some a } =
      entry.2.resolve parent args context { info with schema := some b } := by
  simp only [listings, List.mem_cons, List.not_mem_nil, or_false] at hm
  rcases hm with rfl | rfl | rfl | rfl | rfl
  · exact listing_eq h (fun _ _ hv => describeFields_eq h hd hv _) parent info
  · exact listing_eq h (fun _ type _ => describeInterfaces_eq h type) parent info
  · exact listing_eq h (fun _ type _ => describePossibleTypes_eq h type) parent info
  · exact listing_eq h (fun _ _ _ => rfl) parent info
  · exact listing_eq h (fun _ _ hv => describeInputFields_eq h hd hv) parent info

end

end Introspection

end GraphQL
