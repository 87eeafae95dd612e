import GraphQL.Proofs.Concealment
import GraphQL.Proofs.Correspondence
import GraphQL.Proofs.References

/-!
# Late and resolved references are interchangeable

A request is executed in the same way whether the references of its schema are late or have been
bound in advance. Fields have the same declared types, but for how the references in them are bound;
nulls collapse the same containers, resolvers are told the same types, and values are completed
alike, however many lists and non-null types are around a reference. What the application itself
makes of the schema that its resolvers are given, and of the object types that its authorizers are
given, must not depend on how references are bound.
-/

namespace GraphQL

open Reference
open Introspection (listings)

/-- The application does not tell two schemas apart. Of the resolvers that list what belongs to a
type this is not asked. -/
structure Registry.IgnoresBinding (registry : Registry) (a b : Schema) : Prop where
  resolvers : ∀ typeName fieldName resolver source,
    registry.resolver? typeName fieldName = some (resolver, source) →
      (∃ entry ∈ listings, entry.2 = resolver) ∨
        ∀ parent args context (info : ResolverInfo),
          resolver.resolve parent args context { info with schema := some a } =
            resolver.resolve parent args context { info with schema := some b }
  authorizers : ∀ typeName authorizer, registry.authorizer? typeName = some authorizer →
    ∀ type other, TypeDef.Bound a (.object type) (.object other) → ∀ value context,
      authorizer type value context = authorizer other value context

/-- Resolvers answer alike for both schemas. -/
theorem Registry.IgnoresBinding.resolve_eq {registry : Registry} {a b : Schema}
    (hr : registry.IgnoresBinding a b) (h : a.Binds b) {typeName fieldName : String}
    {resolver : Resolver} {source : ResolverSource}
    (hf : registry.resolver? typeName fieldName = some (resolver, source)) (parent : Json)
    (args : ResolverArgs) (context : Context) (info : ResolverInfo) :
    resolver.resolve parent args context { info with schema := some a } =
      resolver.resolve parent args context { info with schema := some b } := by
  rcases hr.resolvers _ _ resolver source hf with ⟨entry, hm, rfl⟩ | hsame
  · exact Introspection.listings_bound h context hm parent args info
  · exact hsame parent args context info

/-- The resolvers from which an application starts do not tell schemas apart, but for what they list
of a type. -/
theorem Registry.standard_ignoresBinding (a b : Schema) : Registry.standard.IgnoresBinding a b where
  resolvers _ _ _ _ h := by
    rcases Registry.standard_resolver_cases h with rfl | hlisting
    · exact .inr fun _ _ _ _ => rfl
    · exact .inl hlisting
  authorizers _ _ h := nomatch h

/-- What stands for what if references have been bound: selections are the same. -/
def Correspondence.bound (schema : Schema) : Correspondence where
  view := TypeRef.outline
  type := TypeRef.Bound schema
  definition := TypeDef.Bound schema
  selections := Eq
  group := Eq

theorem FieldLookup.Bound.parallel {schema : Schema} {found other : FieldLookup}
    (h : found.Bound schema other) : found.Parallel other := by
  cases h with
  | ordinary _ => exact .ordinary _ _
  | introspection field => exact .introspection field

section Corresponding

variable {env : Environment} {b : Schema} (h : env.schema.Binds b)

section Shaping

variable {site other : Site} (hs : (Correspondence.bound env.schema).Sites site other)
  (content : Content)

include hs

theorem Site.failure_bound (error : CompletionError) : site.failure error = other.failure error := by
  cases hs
  rfl

theorem Site.isNonNull_bound : site.type.isNonNull = other.type.isNonNull := by
  cases hs with
  | intro htype _ =>
    rw [← TypeRef.isNonNull_outline site.type, htype.outline_eq, TypeRef.isNonNull_outline]
    rfl

namespace Shaped

theorem ofLeaf_bound (type : Leaf.LeafDef) : (Correspondence.bound env.schema).Shapes
    (ofLeaf env site type content) (ofLeaf { env with schema := b } other type content) := by
  have hsame : ofLeaf { env with schema := b } other type content =
      ofLeaf env site type content := by
    cases content with
    | items items => rw [ofLeaf, ofLeaf, Site.failure_bound hs]
    | value value => simp only [ofLeaf, Site.failure_bound hs, Site.isNonNull_bound hs]
  rw [hsame]
  exact .refl TypeRef.Bound.same (TypeDefOf.Alike.refl TypeRef.Bound.same) _

theorem ofObject_bound {type type' : ObjectDef}
    (ht : TypeDef.Bound env.schema (.object type) (.object type')) :
    (Correspondence.bound env.schema).Shapes (ofObject site type content)
      (ofObject other type' content) := by
  cases content with
  | items items =>
    rw [ofObject, ofObject, Site.failure_bound hs]
    exact .null _
  | value value => exact .object value ht

include h

theorem ofAbstract_bound {type type' : TypeDef} (ht : type.Bound env.schema type') :
    (Correspondence.bound env.schema).Shapes (ofAbstract env site type content)
      (ofAbstract { env with schema := b } other type' content) := by
  cases content with
  | items items =>
    rw [ofAbstract, ofAbstract, Site.failure_bound hs, ht.name_eq]
    exact .null _
  | value value =>
    have hconcrete := h.concreteType? env.context ht value
    simp only [ofAbstract]
    generalize env.schema.concreteType? env.context type value = found,
      b.concreteType? env.context type' value = found' at hconcrete
    cases hconcrete with
    | none =>
      dsimp only
      rw [Site.failure_bound hs, ht.name_eq]
      exact .null _
    | some hobject => exact ofObject_bound hs (.value value) hobject

theorem ofNamed_bound {type type' : TypeDef} (ht : type.Bound env.schema type') :
    (Correspondence.bound env.schema).Shapes (ofNamed env site content type)
      (ofNamed { env with schema := b } other content type') := by
  have hbound := ht
  cases ht with
  | scalar definition => exact ofLeaf_bound hs content (.scalar definition)
  | enum definition => exact ofLeaf_bound hs content (.enum definition)
  | union definition => exact ofAbstract_bound h hs content hbound
  | interface _ _ _ _ => exact ofAbstract_bound h hs content hbound
  | object _ _ _ _ => exact ofObject_bound hs content hbound
  | inputObject _ _ _ => exact .fault _

/-- Values have the same shape, whatever lists and non-null types are around a reference. -/
theorem of_bound {type type' : TypeRef} (ht : type.Bound env.schema type') :
    (Correspondence.bound env.schema).Shapes (of env site content type)
      (of { env with schema := b } other content type') := by
  induction ht using TypeRef.Bound.wrappers with
  | late name =>
    have hfound := h.visibleType? env.context name
    rw [of, of]
    generalize env.schema.visibleType? env.context name = found,
      b.visibleType? env.context name = found' at hfound
    cases hfound with
    | none => exact .fault _
    | some htype => exact ofNamed_bound h hs content htype
  | bind name definition other hf hbound =>
    have hnamed : of env site content (.late name) = ofNamed env site content definition := by
      rw [of, Schema.visibleType?_of_unhidden h.unhidden, hf]
    rw [hnamed]
    exact ofNamed_bound h hs content hbound
  | resolved definition other hbound => exact ofNamed_bound h hs content hbound
  | list item other hitem _ =>
    rw [of, of, Site.failure_bound hs]
    cases Completion.items? content with
    | none => exact .null _
    | some items => exact .list items hitem
  | nonNull inner other _ ih => exact ih

end Shaped

end Shaping

include h

variable (hr : env.registry.IgnoresBinding env.schema b)

section Fields

variable {frame frame' : ObjectFrame} (hf : (Correspondence.bound env.schema).Frames frame frame')
  (group : FieldGroup)

include hf

theorem lookup_bound : Concur (fun entry other => entry.1.Bound env.schema other.1 ∧
      entry.2.Bound env.schema other.2)
    (lookup env frame group) (lookup { env with schema := b } frame' group) := by
  cases hf with | @intro type ht
  have hfound := h.field? ht group.node.name
  rw [lookup, lookup]
  dsimp only
  rw [← ht.name_eq]
  generalize env.schema.field? frame.type group.node.name = found,
    b.field? type group.node.name = found' at hfound
  cases hfound with
  | none => exact .error _
  | some hdefinition =>
    have hresolved := h.resolve env.context hdefinition.definition.type
    dsimp only
    generalize env.schema.resolve env.context _ = reached,
      b.resolve env.context _ = reached' at hresolved
    cases hresolved with
    | error raised => exact .error raised
    | ok htype => exact .ok ⟨hdefinition, htype⟩

omit h in
theorem arguments_bound {found found' : FieldLookup} (hd : found.Bound env.schema found') :
    arguments env frame group found = arguments { env with schema := b } frame' group found' := by
  rw [arguments, arguments, Preparation.arguments, Preparation.arguments, hf.path,
    hd.definition.extras_eq, Arguments.build_alike hd.definition.arguments]

include hr

/-- Fields are answered alike. -/
theorem answer_bound {found found' : FieldLookup} (hd : found.Bound env.schema found')
    {type type' : TypeRef} (ht : type.Bound env.schema type') :
    answer env frame group found type =
      answer { env with schema := b } frame' group found' type' := by
  have harguments := @arguments_bound env b frame frame' hf group found found' hd
  have hpath := hf.path
  cases hf with | @intro owner ho
  unfold answer
  rw [harguments, ← ht.text_eq]
  cases hd with
  | introspection field =>
    simp only [Introspection.answer_bound h env.context _ ho]
  | ordinary hdefinition =>
    dsimp only
    rw [← ho.name_eq]
    cases hf : env.registry.resolver? frame.type.name group.node.name with
    | none => rfl
    | some entry =>
      let info : ResolverInfo :=
        { fieldName := group.node.name, parentType := frame.type.name, returnType := type.text,
          path := frame.path.key group.key }
      exact congrArg (·, _) (hr.resolve_eq h hf frame.value _ env.context info)

end Fields

include hr

/-- A request is executed alike whether references are late or bound. -/
theorem Environment.holds_bound :
    (Correspondence.bound env.schema).Holds env { env with schema := b } where
  config := rfl
  registry := rfl
  required := TypeRef.isNonNull_outline
  view ht := ht.outline_eq
  name ht := ht.name_eq
  group hg := by
    subst hg
    exact ⟨rfl, rfl, rfl, rfl⟩
  collect := by
    rintro type other selections _ ht rfl
    rw [h.collect_eq env.document env.context ht]
    cases Gathering.collect env.schema env.document env.context type selections with
    | error raised => exact .error raised
    | ok groups => exact .ok (List.forall₂_same.mpr fun _ _ => rfl)
  field := by
    rintro frame frame' group _ hf rfl
    refine (lookup_bound h hf group).imp fun hentry => ⟨hentry.2, hentry.1.parallel, ?_, ?_⟩
    · exact congrArg ResolverArgs.collector (arguments_bound hf group hentry.1)
    · exact congrArg Prod.fst (answer_bound h hr hf group hentry.1 hentry.2)
  shape {site other} hsite content := by
    refine Shaped.of_bound h hsite content ?_
    cases hsite with
    | intro htype _ => exact htype
  authorize {type other} ht value := by
    have hname : type.name = other.name := ht.name_eq
    rw [Registry.authorize, Registry.authorize, hname]
    cases ha : env.registry.authorizer? other.name with
    | none => rfl
    | some authorizer => exact hr.authorizers _ authorizer ha type other ht value env.context

end Corresponding

namespace Executor

variable {a b : Schema} {request : Request}

/-- The request starts alike with either schema. -/
theorem start_bound (executor : Executor) (h : a.Binds b)
    (hr : executor.registry.IgnoresBinding a b) :
    StartAlike (State.SeenAlike TypeRef.outline) (executor.start a request)
      (executor.start b request) := by
  rw [start_eq, start_eq]
  cases request.document.operation? request.operationName with
  | error raised => exact .error raised
  | ok operation =>
    have hroot := h.rootType (operation.withDefaults request.context) operation.kind
    dsimp only
    generalize a.rootType (operation.withDefaults request.context) operation.kind = reached,
      b.rootType (operation.withDefaults request.context) operation.kind = reached' at hroot
    cases hroot with
    | error raised => exact .error raised
    | ok ht =>
      have hholds := @Environment.holds_bound (executor.environment a request operation) b h hr
      exact .ok ⟨_, hholds.lockstep,
        Correspondence.start_alike (.bound a) rfl ht rfl request.root⟩

/-- **Late and resolved references are interchangeable.** A request comes to the same response, at
the same time and by the same events, if late references of the schema have been bound to the
definitions that are registered under their names; only the declared types that are recorded differ,
by what has been bound in them. That holds after as many moves and whoever chooses them. -/
theorem bound_references_agree (executor : Executor) (h : a.Binds b)
    (hr : executor.registry.IgnoresBinding a b) :
    (∀ moves, (executor.execute b request moves).map
        (Except.map (Execution.viewed TypeRef.outline)) =
      (executor.execute a request moves).map (Except.map (Execution.viewed TypeRef.outline))) ∧
    (∀ result, executor.Reaches a request result → ∃ other, executor.Reaches b request other ∧
      other.map (Execution.viewed TypeRef.outline) = result.map (Execution.viewed TypeRef.outline)) ∧
    ∀ result, executor.Reaches b request result → ∃ other, executor.Reaches a request other ∧
      other.map (Execution.viewed TypeRef.outline) =
        result.map (Execution.viewed TypeRef.outline) := by
  have hstart := @start_bound a b request executor h hr
  have hread : ∀ {state other : State}, state.SeenAlike TypeRef.outline other →
      state.execution.viewed TypeRef.outline = other.execution.viewed TypeRef.outline := by
    intro state other hseen
    rw [← State.execution_viewed, ← State.execution_viewed, hseen]
  have hread' : ∀ {state other : State}, flip (State.SeenAlike TypeRef.outline) state other →
      state.execution.viewed TypeRef.outline = other.execution.viewed TypeRef.outline :=
    fun hseen => (hread hseen).symm
  refine ⟨fun moves => (execute_read_eq hstart hread moves).symm, fun result hreaches => ?_,
    fun result hreaches => ?_⟩
  · obtain ⟨other, hother, hsame⟩ := reaches_read hstart hread hreaches
    exact ⟨other, hother, hsame.symm⟩
  · obtain ⟨other, hother, hsame⟩ := reaches_read hstart.swap hread' hreaches
    exact ⟨other, hother, hsame.symm⟩

end Executor

namespace Sample

def book : ObjectDef where
  name := "Book"
  fields := [{ name := "title", type := .required "String" }]

/-- Shelves on which books are referred to in some way. -/
def shelves (book : TypeRef) : Schema :=
  { Schema.standard with
    queryType := some "Query"
    types := Schema.standard.types ++
      [.object { name := "Query", fields := [{ name := "shelves", type := .nonNull (.list book) }] },
        .object Sample.book] }

theorem shelves_binds : (shelves (.late "Book")).Binds (shelves (.resolved (.object book))) where
  queryType := rfl
  mutationType := rfl
  subscriptionType := rfl
  directives := rfl
  typeResolvers := rfl
  unhidden := rfl
  unhidden' := rfl
  types := by
    have hrefl : ∀ type : TypeDef, type.Bound (shelves (.late "Book")) type :=
      TypeDefOf.Alike.refl TypeRef.Bound.same
    have hbook : TypeRef.Bound (shelves (.late "Book")) (.late "Book") (.resolved (.object book)) :=
      .bind rfl (hrefl _)
    exact List.rel_append (List.forall₂_same.mpr fun type _ => hrefl type)
      (.cons (.object _ _ _ (.cons (.intro _ _ _ _ (.nonNull (.list hbook)) .nil) .nil))
        (.cons (hrefl _) .nil))

/-- Two books, of which one has lost its title. -/
def books : Resolver where
  resolve _ _ _ _ := .ready (.value (.arr [.obj [("title", .str "Emma")], .obj []]))

/-- What stands under the name of a field, unless that is lost. -/
def written : Resolver where
  resolve parent _ _ info := .ready (((parent.member? info.fieldName).map FieldValue.value).getD
    (.error { message := "lost" }))

def library : Registry where
  resolvers := ("Query.shelves", books) :: listings.map fun entry =>
    (Registry.fieldKey "__Type" entry.1, entry.2)
  fallback := some written

theorem library_ignoresBinding (a b : Schema) : library.IgnoresBinding a b where
  resolvers typeName fieldName resolver source h := by
    rcases Registry.mem_of_resolver? h with ⟨entry, hm, rfl⟩ | hfallback
    · rcases List.mem_cons.mp hm with rfl | hm
      · exact .inr fun _ _ _ _ => rfl
      · obtain ⟨listing, hlisting, rfl⟩ := List.mem_map.mp hm
        exact .inl ⟨listing, hlisting, rfl⟩
    · obtain rfl := Option.some.inj hfallback
      exact .inr fun _ _ _ _ => rfl
  authorizers _ _ h := nomatch h

end Sample

namespace Sample

/-- Asks for the books, and how introspection shows the field of the books. -/
def browsing : Operation where
  selections :=
    [.field { name := "shelves", selections := [.field { name := "title" }] },
      .field { name := "__type", arguments := [("name", .str "Query")], selections :=
        [.field { name := "fields", selections := [.field { name := "type", selections :=
          [.field { name := "kind" }, .field { name := "ofType", selections :=
            [.field { name := "ofType", selections :=
              [.field { name := "kind" }, .field { name := "name" }] }] }] }] }] }]

def browse : Request where
  document := { operations := [browsing] }

end Sample

namespace Executor

open Sample

set_option maxRecDepth 20000 in
/-- The theorem at a list of books: the book without a title is null, and introspection shows the
type of the books. -/
theorem shelves_agree :
    (∀ moves, (execute { registry := library } (shelves (.resolved (.object book))) browse
        moves).map (Except.map (Execution.viewed TypeRef.outline)) =
      (execute { registry := library } (shelves (.late "Book")) browse moves).map
        (Except.map (Execution.viewed TypeRef.outline))) ∧
    (execute { registry := library } (shelves (.late "Book")) browse 150).map
        (Except.map fun execution => execution.response.data) =
      some (.ok (.obj [("shelves", .arr [.obj [("title", .str "Emma")], .null]),
        ("__type", .obj [("fields", .arr [.obj [("type",
          .obj [("kind", .str "NON_NULL"), ("ofType", .obj [("ofType",
            .obj [("kind", .str "OBJECT"), ("name", .str "Book")])])])]])])])) := by
  obtain ⟨hexecute, -, -⟩ := @bound_references_agree _ _ browse { registry := library }
    shelves_binds (library_ignoresBinding _ _)
  refine ⟨hexecute, ?_⟩
  cbv

end Executor

end GraphQL
