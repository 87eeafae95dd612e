import GraphQL.Proofs.Hidden
import GraphQL.Proofs.Timing
import GraphQL.Schema.Builtin

/-!
# What introspection conceals

A request whose root fields are those of introspection only is answered from descriptions of the
schema, and all values that it is given have types that introspection shows. So the request does the
same on two schemas that differ in the definition of a hidden type: step by step, whoever chooses
the moves. The kind and the description of that type must be the same in both, though, if a field or
an argument that the request can see refers to it.
-/

namespace GraphQL

open Reference

/-- The schema makes no difference to what is answered. -/
def Resolver.IgnoresSchema (resolver : Resolver) : Prop :=
  ∀ parent args context (info : ResolverInfo) schema other,
    resolver.resolve parent args context { info with schema } =
      resolver.resolve parent args context { info with schema := other }

namespace Introspection

/-- The declared types of the values that introspection gives: those of its fields, and whatever is
found from there. -/
inductive Shows (schema : Schema) (context : Context) : TypeRef → Prop where
  | root (field : MetaField) : Shows schema context field.definition.type
  | found {name : String} {type : TypeDef} (h : Shows schema context (.late name))
      (hv : schema.visibleType? context name = some type) : Shows schema context (.resolved type)
  | item {item : TypeRef} (h : Shows schema context (.list item)) : Shows schema context item
  | inner {inner : TypeRef} (h : Shows schema context (.nonNull inner)) : Shows schema context inner
  | field {definition : ObjectDef} {field : FieldDef}
      (h : Shows schema context (.resolved (.object definition)))
      (hf : field ∈ definition.fields) : Shows schema context field.type

theorem Shows.resolve {schema : Schema} {context : Context} {ref type : TypeRef}
    (h : Shows schema context ref) (hr : schema.resolve context ref = .ok type) :
    Shows schema context type := by
  cases ref with
  | late name =>
    rw [Schema.resolve] at hr
    split at hr
    · next hv =>
      obtain rfl := Except.ok.inj hr
      exact h.found hv
    · cases hr
  | _ =>
    obtain rfl := Except.ok.inj hr
    exact h

/-- The types that are shown are not abstract. -/
def ShowsConcrete (schema : Schema) (context : Context) : Prop :=
  ∀ type, Shows schema context (.resolved type) → type.isAbstract = false

end Introspection

section

variable {schema : Schema} {owner : ObjectDef} {name : String} {definition : FieldDef}
  (h : schema.field? (.object owner) name = some (.ordinary definition))

include h

theorem Schema.find?_of_ordinary :
    owner.fields.find? (fun field => field.name = name) = some definition := by
  unfold field? at h
  split at h
  · next found hfound =>
    obtain rfl := FieldLookup.ordinary.inj (Option.some.inj h)
    exact hfound
  · split_ifs at h <;> cases h

theorem Schema.mem_fields_of_ordinary : definition ∈ owner.fields :=
  List.mem_of_find?_eq_some (find?_of_ordinary h)

theorem Schema.name_of_ordinary : definition.name = name := by
  simpa using List.find?_some (find?_of_ordinary h)

end

open Introspection (Shows ShowsConcrete listings)

/-- Introspection does not depend on which of two definitions of a hidden type a schema has: neither
the descriptions that it gives nor how the application completes them. -/
structure Environment.Conceals (env : Environment) (other : Schema) (name : String) : Prop where
  differs : env.schema.DiffersAt other env.context name
  alike : env.schema.DescribesAlike other env.context name
  /-- The types that are shown are not abstract, and none of them is the hidden one. -/
  shown : ∀ type, Shows env.schema env.context (.resolved type) →
    type.isAbstract = false ∧ type.name ≠ name
  /-- The fields of these types are listed by introspection or resolved without the schema. -/
  resolvers : ∀ type fieldName resolver source,
    Shows env.schema env.context (.resolved (.object type)) →
    env.registry.resolver? type.name fieldName = some (resolver, source) →
    resolver.IgnoresSchema ∨ ∃ entry ∈ listings, entry.2 = resolver

/-- No field that is selected on the root is one of the root type's own: introspection answers them,
or they are unknown. -/
def Environment.Introspects (env : Environment) (root : TypeDef) (selections : List Selection) :
    Prop :=
  ∀ groups, Gathering.collect env.schema env.document env.context root selections = .ok groups →
    ∀ group ∈ groups, ∀ definition,
      env.schema.field? root group.node.name ≠ some (.ordinary definition)

/-- A field of an object that introspection shows, or one that it answers itself. -/
def FieldGroup.Asks (env : Environment) (frame : ObjectFrame) (group : FieldGroup) : Prop :=
  (∃ type, frame.type = .object type ∧ Shows env.schema env.context (.resolved (.object type))) ∨
    ∀ definition, env.schema.field? frame.type group.node.name ≠ some (.ordinary definition)

/-- What occurs while introspection is answered. -/
def Occurrence.Shown (env : Environment) : Occurrence → Prop
  | object frame selections =>
      ∀ groups, Gathering.collect env.schema env.document env.context frame.type selections =
        .ok groups → ∀ group ∈ groups, group.Asks env frame
  | field frame group => group.Asks env frame
  | value site _ => Shows env.schema env.context site.type
  | exposed _ type _ => Shows env.schema env.context (.resolved (.object type))

theorem Environment.Conceals.concrete {env : Environment} {other : Schema} {name : String}
    (h : env.Conceals other name) : ShowsConcrete env.schema env.context :=
  fun type ht => (h.shown type ht).1

section Shaping

variable {env : Environment} (hc : ShowsConcrete env.schema env.context)
variable (site : Site) (content : Content)

namespace Shaped

/-- The types that the shape leads to are shown. -/
def Shown (schema : Schema) (context : Context) : Shaped → Prop
  | list itemType _ => Shows schema context itemType
  | object type _ => Shows schema context (.resolved (.object type))
  | _ => True

section

include hc

theorem shown_ofNamed {type : TypeDef} (ht : Shows env.schema env.context (.resolved type)) :
    (ofNamed env site content type).Shown env.schema env.context := by
  rcases ofNamed_cases env site content type with
    ⟨_, he⟩ | ⟨_, he⟩ | ⟨_, he⟩ | ⟨concrete, value, -, rfl | ⟨ha, -⟩, he⟩
  · rw [he]
    trivial
  · rw [he]
    trivial
  · rw [he]
    trivial
  · rw [he]
    exact ht
  · rw [hc _ ht] at ha
    cases ha

theorem shown_of {type : TypeRef} (ht : Shows env.schema env.context type) :
    (of env site content type).Shown env.schema env.context := by
  induction type with
  | nonNull inner ih => exact ih ht.inner
  | list item _ =>
    rw [of]
    split
    · trivial
    · exact ht.item
  | resolved definition => exact shown_ofNamed hc site content ht
  | late name =>
    rw [of]
    split
    · next hv => exact shown_ofNamed hc site content (ht.found hv)
    · trivial

end

variable {other : Schema} {name : String} (h : env.Conceals other name)

include h

theorem ofNamed_concealed {type : TypeDef} (ht : Shows env.schema env.context (.resolved type)) :
    ofNamed { env with schema := other } site content type = ofNamed env site content type := by
  cases type with
  | union definition => cases (h.shown _ ht).1
  | interface definition => cases (h.shown _ ht).1
  | _ => rfl

/-- Values of shown types have the same shape in both schemas. -/
theorem of_concealed {type : TypeRef} (ht : Shows env.schema env.context type) :
    of { env with schema := other } site content type = of env site content type := by
  induction type with
  | nonNull inner ih => exact ih ht.inner
  | list item _ => rfl
  | resolved definition => exact ofNamed_concealed site content h ht
  | late name =>
    rw [of, of, ← h.differs.visibleType?_eq]
    cases hv : env.schema.visibleType? env.context name with
    | none => rfl
    | some definition => exact ofNamed_concealed site content h (ht.found hv)

end Shaped

end Shaping

section Occurring

variable {env : Environment} {root : ObjectFrame} {top : List Selection}

theorem FieldGroup.Asks.shows {frame : ObjectFrame} {group : FieldGroup} (ha : group.Asks env frame)
    {found : FieldLookup} {type : TypeRef} (hl : lookup env frame group = .ok (found, type)) :
    Shows env.schema env.context type := by
  obtain ⟨hfound, hresolve⟩ := lookup_ok hl
  cases found with
  | introspection field => exact (Shows.root field).resolve hresolve
  | ordinary definition =>
    rcases ha with ⟨object, hobject, hshows⟩ | hnone
    · rw [hobject] at hfound
      exact (hshows.field (Schema.mem_fields_of_ordinary hfound)).resolve hresolve
    · exact absurd hfound (hnone definition)

variable (hc : ShowsConcrete env.schema env.context)

include hc

theorem Site.shown_of_shape {site : Site} {value : FieldValue} {shaped : Shaped}
    (ht : Shows env.schema env.context site.type) (hs : site.shape env value = some shaped) :
    shaped.Shown env.schema env.context := by
  unfold shape at hs
  split at hs
  · cases hs
  · obtain rfl := Option.some.inj hs
    trivial
  · next content _ =>
    obtain rfl := Option.some.inj hs
    exact Shaped.shown_of hc site content ht

/-- Whatever occurs is shown if the root asks for introspection only. -/
theorem Occurs.shown (hroot : (Occurrence.object root top).Shown env) {x : Occurrence}
    (ho : Occurs env root top x) : x.Shown env := by
  induction ho with
  | root => exact hroot
  | field _ hg hm ih => exact ih _ hg _ hm
  | answer _ hl ih => exact ih.shows hl
  | element _ hs _ ih => exact Site.shown_of_shape hc ih hs
  | expose _ hs ih => exact Site.shown_of_shape hc ih hs
  | enter _ _ ih => exact fun _ _ _ _ => .inl ⟨_, rfl, ih⟩

end Occurring

section Steps

variable {env : Environment} {other : Schema} {name : String} (h : env.Conceals other name)
variable {root : ObjectFrame} {top : List Selection}

include h

/-- No object that is entered is of the hidden type. -/
theorem Occurs.type_name_ne (hname : root.type.name ≠ name)
    (hroot : (Occurrence.object root top).Shown env) {frame : ObjectFrame}
    {selections : List Selection} (ho : Occurs env root top (.object frame selections)) :
    frame.type.name ≠ name := by
  cases ho with
  | root => exact hname
  | enter parent _ => exact (h.shown _ (parent.shown h.concrete hroot)).2

theorem lookup_concealed (frame : ObjectFrame) (group : FieldGroup) :
    lookup { env with schema := other } frame group = lookup env frame group := by
  simp only [lookup, h.differs.field?_eq, h.differs.resolve_eq]

/-- The fields of shown types are resolved alike. -/
theorem resolve_concealed {type : ObjectDef} {fieldName : String} {resolver : Resolver}
    {source : ResolverSource} (ht : Shows env.schema env.context (.resolved (.object type)))
    (hr : env.registry.resolver? type.name fieldName = some (resolver, source)) (parent : Json)
    (args : ResolverArgs) (info : ResolverInfo) :
    resolver.resolve parent args env.context { info with schema := some other } =
      resolver.resolve parent args env.context { info with schema := some env.schema } := by
  rcases h.resolvers type fieldName resolver source ht hr with hignores | ⟨entry, hm, rfl⟩
  · exact hignores parent args env.context info _ _
  · exact (Introspection.listings_eq h.differs h.alike hm parent args info).symm

/-- Fields that introspection is asked for are answered alike. -/
theorem answer_concealed {frame : ObjectFrame} {group : FieldGroup} (ha : group.Asks env frame)
    {found : FieldLookup} {type : TypeRef} (hl : lookup env frame group = .ok (found, type)) :
    answer { env with schema := other } frame group found type = answer env frame group found type := by
  cases found with
  | introspection field =>
    simp only [answer, Introspection.answer_eq h.differs h.alike]
    rfl
  | ordinary definition =>
    rcases ha with ⟨object, hobject, hshows⟩ | hnone
    · simp only [answer, hobject]
      cases hr : env.registry.resolver? (TypeDefOf.object object).name group.node.name with
      | none => rfl
      | some entry =>
        let info : ResolverInfo :=
          { fieldName := group.node.name, parentType := object.name, returnType := type.text,
            path := frame.path.key group.key }
        exact congrArg (·, _) (resolve_concealed h hshows hr frame.value
          (arguments env frame group (.ordinary definition)) info)
    · exact absurd (lookup_ok hl).1 (hnone definition)

theorem fieldDeeds_concealed {frame : ObjectFrame} {group : FieldGroup} (ha : group.Asks env frame)
    {found : FieldLookup} {type : TypeRef} (hl : lookup env frame group = .ok (found, type)) :
    Work.fieldDeeds { env with schema := other } frame group found type =
      Work.fieldDeeds env frame group found type := by
  unfold Work.fieldDeeds
  rw [answer_concealed h ha hl]
  rfl

theorem prepareField_concealed {frame : ObjectFrame} {group : FieldGroup}
    (ha : group.Asks env frame) (going : Phase → Work)
    (finished : Option (Site × Resolution) → Task) (state : State) (phase : Phase) :
    Preparation.prepareField { env with schema := other } frame group going finished state phase =
      Preparation.prepareField env frame group going finished state phase := by
  rw [Work.prepareField_eq, Work.prepareField_eq, lookup_concealed h]
  cases phase with
  | declare => cases lookup env frame group <;> rfl
  | check => rfl
  | call =>
    cases hl : lookup env frame group with
    | error raised => rfl
    | ok entry =>
      obtain ⟨found, type⟩ := entry
      dsimp only
      rw [answer_concealed h ha hl, fieldDeeds_concealed h ha hl]
      rfl

/-- A step does the same with either schema. -/
theorem step_concealed (hname : root.type.name ≠ name)
    (hroot : (Occurrence.object root top).Shown env) {piece : Work}
    (ho : piece.Occurs env root top) (state : State) :
    piece.step { env with schema := other } state = piece.step env state := by
  cases piece with
  | select frame selections serial =>
    rw [Work.step, Work.step, Preparation.select, Preparation.select,
      ← h.differs.collect_eq env.document (ho.type_name_ne h hname hroot)]
  | prepare frame phase groups prepared =>
    cases groups with
    | nil => rfl
    | cons group rest =>
      rw [Work.step, Work.step, Preparation.prepare, Preparation.prepare,
        prepareField_concealed h ((ho.1 group List.mem_cons_self).shown h.concrete hroot)]
  | field frame phase group =>
    rw [Work.step, Work.step, Preparation.prepareAlone, Preparation.prepareAlone,
      prepareField_concealed h (ho.shown h.concrete hroot)]
  | settle site purpose resolution => cases resolution <;> rfl
  | await site purpose progress stages value =>
    cases progress with
    | started =>
      cases stages with
      | nil => rfl
      | cons stage rest => cases stage <;> rfl
    | _ => rfl
  | resume site purpose value => rfl
  | complete site content =>
    obtain ⟨value, ho, -⟩ := ho
    rw [Work.step, Work.step, Shaped.complete_eq, Shaped.complete_eq,
      Shaped.of_concealed site content h (ho.shown h.concrete hroot)]
    rfl

/-- Machines with either schema are in lockstep. -/
theorem lockstep_concealed (hname : root.type.name ≠ name)
    (hroot : (Occurrence.object root top).Shown env) :
    Lockstep env { env with schema := other } Eq fun piece given =>
      piece = given ∧ piece.Occurs env root top where
  config := rfl
  clock hs := congrArg State.clock hs
  pass hs _ := by rw [hs]
  progress h := by rw [h.1]
  task := by
    rintro piece _ ⟨rfl, ho⟩ state _ rfl
    rw [step_concealed h hname hroot ho]
    exact (Task.Alike.refl (fun _ => rfl) _).and_works (Work.step_occurs state ho)
  state := by
    rintro piece _ ⟨rfl, ho⟩ state _ rfl
    rw [step_concealed h hname hroot ho]

end Steps

section Standard

variable {schema : Schema} {context : Context}

/-- A reference to a standard type by name, or a standard type that the request sees. -/
def Introspection.IsStandard (schema : Schema) (context : Context) (ref : TypeRef) : Prop :=
  (ref.refersTo ref.baseName = true ∧ ref.baseName ∈ Schema.standard.types.map TypeDefOf.name) ∨
    ∃ type ∈ Schema.standard.types, ref = .resolved type ∧
      schema.visibleType? context type.name = some type

theorem Introspection.isStandard_field {definition : ObjectDef} {field : FieldDef}
    (hd : .object definition ∈ Schema.standard.types) (hf : field ∈ definition.fields) :
    field.type.refersTo field.type.baseName = true ∧
      field.type.baseName ∈ Schema.standard.types.map TypeDefOf.name := by
  have hall : ∀ type ∈ Schema.standard.types, ∀ ref ∈ type.refs,
      ref.refersTo ref.baseName = true ∧
        ref.baseName ∈ Schema.standard.types.map TypeDefOf.name := by decide
  have hfields : (TypeDefOf.object definition).fields? = some definition.fields := rfl
  exact hall _ hd _ (TypeDefOf.refs_field hfields hf).1

/-- The standard types keep their names where others come after them. -/
theorem Schema.standard_of_type? (hs : Schema.standard.types <+: schema.types) {name : String}
    {type : TypeDef} (hn : name ∈ Schema.standard.types.map TypeDefOf.name)
    (h : schema.type? name = some type) : type ∈ Schema.standard.types := by
  obtain ⟨rest, hrest⟩ := hs
  rw [type?, Named.find?, ← hrest, List.find?_append] at h
  cases hf : Schema.standard.types.find? fun type => Named.name type = name with
  | none =>
    obtain ⟨standard, hm, rfl⟩ := List.mem_map.mp hn
    simpa [Named.name] using List.find?_eq_none.mp hf standard hm
  | some found =>
    rw [hf, Option.some_or] at h
    exact Option.some.inj h ▸ List.mem_of_find?_eq_some hf

/-- Introspection shows standard types only, if the schema keeps them. -/
theorem Introspection.Shows.isStandard (hs : Schema.standard.types <+: schema.types) {ref : TypeRef}
    (h : Shows schema context ref) : IsStandard schema context ref := by
  induction h with
  | root field =>
    have hroots : ∀ field : MetaField, field.definition.type.refersTo field.definition.type.baseName ∧
        field.definition.type.baseName ∈ Schema.standard.types.map TypeDefOf.name := by
      intro field
      cases field <;> decide
    exact .inl (hroots field)
  | @found name type _ hv ih =>
    rcases ih with ⟨-, hnamed⟩ | ⟨_, _, he, -⟩
    · have hfound := Schema.type?_of_visible hv
      obtain rfl := Schema.name_of_type hfound
      exact .inr ⟨type, Schema.standard_of_type? hs hnamed hfound, rfl, hv⟩
    · cases he
  | item _ ih =>
    rcases ih with hnamed | ⟨_, _, he, -⟩
    · exact .inl hnamed
    · cases he
  | inner _ ih =>
    rcases ih with hnamed | ⟨_, _, he, -⟩
    · exact .inl hnamed
    · cases he
  | field _ hf ih =>
    rcases ih with ⟨hrefers, -⟩ | ⟨_, hm, he, -⟩
    · cases hrefers
    · obtain rfl := TypeRef.resolved.inj he
      exact .inl (Introspection.isStandard_field hm hf)

theorem Introspection.Shows.mem_standard (hs : Schema.standard.types <+: schema.types)
    {type : TypeDef} (h : Shows schema context (.resolved type)) :
    type ∈ Schema.standard.types ∧ schema.visibleType? context type.name = some type := by
  rcases h.isStandard hs with ⟨hrefers, -⟩ | ⟨_, hm, he, hv⟩
  · cases hrefers
  · obtain rfl := TypeRef.resolved.inj he
    exact ⟨hm, hv⟩

theorem Introspection.showsConcrete_standard (hs : Schema.standard.types <+: schema.types) :
    ShowsConcrete schema context := by
  have hconcrete : ∀ type ∈ Schema.standard.types, type.isAbstract = false := by decide
  exact fun type ht => hconcrete type (ht.mem_standard hs).1

/-- A resolver that is found is registered or the fallback. -/
theorem Registry.mem_of_resolver? {registry : Registry} {typeName fieldName : String}
    {resolver : Resolver} {source : ResolverSource}
    (h : registry.resolver? typeName fieldName = some (resolver, source)) :
    (∃ entry ∈ registry.resolvers, entry.2 = resolver) ∨ registry.fallback = some resolver := by
  rw [resolver?] at h
  split at h
  · next found hfound =>
    obtain ⟨rfl, -⟩ := Prod.mk.inj (Option.some.inj h)
    exact .inl ⟨_, Members.mem_of_get? hfound, rfl⟩
  · obtain ⟨fallback, hfallback, he⟩ := Option.map_eq_some_iff.mp h
    exact .inr (hfallback.trans (congrArg some (Prod.mk.inj he).1))

/-- The resolvers from which an application starts list what belongs to a type, or read a property. -/
theorem Registry.standard_resolver_cases {typeName fieldName : String} {resolver : Resolver}
    {source : ResolverSource}
    (h : Registry.standard.resolver? typeName fieldName = some (resolver, source)) :
    resolver = Property.resolver ∨ ∃ entry ∈ listings, entry.2 = resolver := by
  rcases mem_of_resolver? h with ⟨entry, hm, rfl⟩ | hfallback
  · have hresolvers : Registry.standard.resolvers =
        listings.map fun entry => (Registry.fieldKey "__Type" entry.1, entry.2) := rfl
    rw [hresolvers] at hm
    obtain ⟨listing, hlisting, rfl⟩ := List.mem_map.mp hm
    exact .inr ⟨listing, hlisting, rfl⟩
  · exact .inl (Option.some.inj hfallback).symm

theorem Registry.standard_resolver {typeName fieldName : String} {resolver : Resolver}
    {source : ResolverSource}
    (h : Registry.standard.resolver? typeName fieldName = some (resolver, source)) :
    resolver.IgnoresSchema ∨ ∃ entry ∈ listings, entry.2 = resolver := by
  refine (standard_resolver_cases h).imp (fun hproperty => ?_) id
  rw [hproperty]
  exact fun _ _ _ _ _ _ => rfl

/-- An application that leaves the introspection types and their resolvers as they are gives away
nothing of its own. -/
theorem Environment.conceals_standard {env : Environment} {other : Schema} {name : String}
    (hd : env.schema.DiffersAt other env.context name)
    (ha : env.schema.DescribesAlike other env.context name)
    (hs : Schema.standard.types <+: env.schema.types)
    (hr : ∀ type ∈ Schema.standard.types, ∀ fieldName,
      env.registry.resolver? type.name fieldName =
        Registry.standard.resolver? type.name fieldName) : env.Conceals other name := by
  refine ⟨hd, ha, fun type ht => ?_, fun type fieldName resolver source ht hf => ?_⟩
  · have hvisible := (ht.mem_standard hs).2
    exact ⟨Introspection.showsConcrete_standard hs type ht, hd.ne_of_visible hvisible⟩
  · have hstandard := (ht.mem_standard hs).1
    exact Registry.standard_resolver ((hr (.object type) hstandard fieldName).symm.trans hf)

end Standard

namespace Executor

variable {executor : Executor} {a b : Schema} {request : Request}

/-- The root of a request that asks for introspection only. -/
theorem shown_root {operation : Operation} {rootType : TypeDef}
    (hi : (executor.environment a request operation).Introspects rootType operation.selections) :
    (Occurrence.object { path := [], type := rootType, value := request.root }
      operation.selections).Shown (executor.environment a request operation) :=
  fun groups hg group hm => .inr (hi groups hg group hm)

theorem root_name_ne {name : String} {operation : Operation} {rootType : TypeDef}
    (hc : (executor.environment a request operation).Conceals b name)
    (ht : a.rootType (operation.withDefaults request.context) operation.kind = .ok rootType) :
    rootType.name ≠ name := by
  rw [Schema.rootType] at ht
  split at ht
  · cases ht
  · split at ht
    · next hv =>
      obtain rfl := Except.ok.inj ht
      exact hc.differs.ne_of_visible hv
    · cases ht

/-- **Introspection does not reveal a hidden type** but for its kind and description: a request for
introspection only comes to the same on two schemas that differ in the definition of a hidden type,
by its own choices and whoever chooses the moves. -/
theorem hidden_type_concealed (executor : Executor) (a b : Schema) (request : Request)
    (name : String)
    (hc : ∀ operation, request.document.operation? request.operationName = .ok operation →
      (executor.environment a request operation).Conceals b name)
    (hi : ∀ operation rootType,
      request.document.operation? request.operationName = .ok operation →
      a.rootType (operation.withDefaults request.context) operation.kind = .ok rootType →
      (executor.environment a request operation).Introspects rootType operation.selections) :
    (∀ moves, executor.execute a request moves = executor.execute b request moves) ∧
      ∀ result, executor.Reaches a request result ↔ executor.Reaches b request result := by
  have halike : StartAlike Eq (executor.start a request) (executor.start b request) := by
    rw [start_eq, start_eq]
    cases ho : request.document.operation? request.operationName with
    | error raised => exact .error raised
    | ok operation =>
      have hdiffers : a.DiffersAt b (operation.withDefaults request.context) name :=
        (hc operation ho).differs
      dsimp only
      rw [← hdiffers.rootType_eq]
      cases ht : a.rootType (operation.withDefaults request.context) operation.kind with
      | error raised => exact .error raised
      | ok rootType =>
        have hroot := shown_root (hi operation rootType ho ht)
        have hname := root_name_ne (hc operation ho) ht
        exact .ok ⟨_, lockstep_concealed (hc operation ho) hname hroot, .work ⟨rfl, .root⟩, rfl⟩
  exact ⟨execute_eq_of_alike halike, fun result =>
    ⟨reaches_of_alike halike, reaches_of_alike halike.symm⟩⟩

end Executor

namespace Sample

/-- A schema that hides its secret, to which a visible field refers. -/
def vault (description : Option String) (fields : List FieldDef) : Schema :=
  { Schema.standard with
    queryType := some "Query"
    types := Schema.standard.types ++
      [.object { name := "Query", fields := [{ name := "secret", type := .late "Secret" }] },
        .object { name := "Secret", description, fields }]
    visibility := some fun type _ => type.name ≠ "Secret" }

theorem vault_differs (description other : Option String) (fields others : List FieldDef)
    (context : Context) :
    (vault description fields).DiffersAt (vault other others) context "Secret" where
  queryType := rfl
  mutationType := rfl
  subscriptionType := rfl
  directives := rfl
  typeResolvers := rfl
  visibility := rfl
  types := List.rel_append (List.forall₂_same.mpr fun _ _ => .inl rfl)
    (.cons (.inl rfl) (.cons (.inr ⟨rfl, rfl⟩) .nil))
  hidden := ⟨rfl, rfl⟩

/-- Asks which types the fields of the query root have. -/
def typeOfQuery : FieldNode where
  name := "__type"
  arguments := [("name", .str "Query")]
  selections :=
    [.field { name := "fields", selections := [.field { name := "type", selections :=
      [.field { name := "name" }, .field { name := "description" }] }] }]

def prying : Operation where
  selections := [.field typeOfQuery]

def pry : Request where
  document := { operations := [prying] }

theorem prying_introspects {description : Option String} {fields : List FieldDef}
    {rootType : TypeDef} (ht : (vault description fields).rootType {} .query = .ok rootType) :
    (({} : Executor).environment (vault description fields) pry prying).Introspects rootType
      prying.selections := by
  obtain rfl := Except.ok.inj ht
  intro groups hg group hm definition hf
  have hgroups : groups = [{ key := "__type", node := typeOfQuery }] :=
    Except.ok.inj (hg.symm.trans (by cbv))
  rw [hgroups] at hm
  obtain rfl := List.mem_singleton.mp hm
  cases hf

end Sample

namespace Executor

open Sample

/-- Of a secret whose description stays the same introspection does not tell which fields it has. -/
theorem hidden_fields_concealed :
    (∀ moves, ({} : Executor).execute (vault (some "Kept") []) pry moves =
      ({} : Executor).execute (vault (some "Kept") [{ name := "code", type := .late "Int" }]) pry
        moves) ∧
    ∀ result, ({} : Executor).Reaches (vault (some "Kept") []) pry result ↔
      ({} : Executor).Reaches (vault (some "Kept") [{ name := "code", type := .late "Int" }]) pry
        result := by
  refine hidden_type_concealed {} _ _ pry "Secret" (fun operation ho => ?_)
    fun operation rootType ho ht => ?_
  · exact Environment.conceals_standard (vault_differs _ _ _ _ _) (.inl rfl) ⟨_, rfl⟩
      fun _ _ _ => rfl
  · obtain rfl := Except.ok.inj ho
    exact prying_introspects ht

set_option maxRecDepth 20000 in
/-- The description of a hidden type shows in the type of a field that refers to it, so a request
for introspection tells schemas apart that differ in it only. -/
theorem hidden_description_revealed :
    (vault (some "The launch codes") []).DiffersAt (vault none []) {} "Secret" ∧
    (∀ rootType, (vault (some "The launch codes") []).rootType {} .query = .ok rootType →
      (({} : Executor).environment (vault (some "The launch codes") []) pry prying).Introspects
        rootType prying.selections) ∧
    (({} : Executor).execute (vault (some "The launch codes") []) pry 60).map
        (Except.map fun execution => execution.response.data) =
      some (.ok (.obj [("__type", .obj [("fields", .arr [.obj [("type",
        .obj [("name", .str "Secret"), ("description", .str "The launch codes")])]])])])) ∧
    (({} : Executor).execute (vault none []) pry 60).map
        (Except.map fun execution => execution.response.data) =
      some (.ok (.obj [("__type", .obj [("fields", .arr [.obj [("type",
        .obj [("name", .str "Secret"), ("description", .null)])]])])])) := by
  refine ⟨vault_differs _ _ _ _ _, fun rootType ht => prying_introspects ht, ?_, ?_⟩
  · cbv
  · cbv

end Executor

end GraphQL
