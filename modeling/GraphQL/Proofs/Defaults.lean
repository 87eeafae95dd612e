import GraphQL.Proofs.Concealment
import GraphQL.Proofs.Veils

/-!
# What is left to the default resolver

Introspection describes the schema in JSON and lists some of what belongs to a type by resolvers of
its own. Every other field of its types is left to whatever the application has as its default
resolver. So what introspection answers depends on the default resolver, but on nothing of it
besides what it makes of these fields: two defaults that answer them alike give the same responses.
-/

namespace GraphQL

open Reference

/-- What the default resolver answers; null if there is none. -/
def Registry.leave (registry : Registry) (parent : Json) (args : ResolverArgs) (context : Context)
    (info : ResolverInfo) : Reply :=
  match registry.fallback with
  | some resolver => resolver.resolve parent args context info
  | none => .ready (.value .null)

/-- True if a field has a resolver of its own. -/
def Registry.registers (registry : Registry) (typeName fieldName : String) : Bool :=
  Members.contains (Registry.fieldKey typeName fieldName) registry.resolvers

namespace Environment

/-- The environment with another default resolver, or with none. -/
def withDefault (env : Environment) (fallback : Option Resolver) : Environment :=
  { env with registry := env.registry.setFallback fallback }

/-- What the default resolver answers for a field of an object. -/
def leave (env : Environment) (frame : ObjectFrame) (group : FieldGroup) (definition : FieldDef)
    (type : TypeRef) : Reply :=
  env.registry.leave frame.value (arguments env frame group (.ordinary definition)) env.context
    { fieldName := group.node.name, parentType := frame.type.name, returnType := type.text,
      path := frame.path.key group.key, schema := some env.schema }

/-- The default resolver and another one answer alike whatever is left to them: the fields that
occur and have no resolver of their own. -/
def LeavesAlike (env : Environment) (fallback : Option Resolver) (root : ObjectFrame)
    (top : List Selection) : Prop :=
  ∀ frame group definition type, Occurs env root top (.field frame group) →
    lookup env frame group = .ok (.ordinary definition, type) →
    env.registry.registers frame.type.name group.node.name = false →
      env.leave frame group definition type =
        (env.withDefault fallback).leave frame group definition type

end Environment

section Answers

variable {env : Environment} {frame : ObjectFrame} {group : FieldGroup} {type : TypeRef}

/-- A field without a resolver of its own is left to the default resolver. -/
theorem answer_unregistered (definition : FieldDef)
    (hn : env.registry.registers frame.type.name group.node.name = false) :
    (answer env frame group (.ordinary definition) type).1 =
      env.leave frame group definition type := by
  have hnone : Members.get? (Registry.fieldKey frame.type.name group.node.name)
      env.registry.resolvers = none := Option.isSome_eq_false_iff.mp hn |> Option.isNone_iff_eq_none.mp
  simp only [answer, Registry.resolver?, hnone, Environment.leave, Registry.leave]
  cases env.registry.fallback <;> rfl

theorem answer_registered (definition : FieldDef) (fallback : Option Resolver)
    (hr : env.registry.registers frame.type.name group.node.name = true) :
    (answer (env.withDefault fallback) frame group (.ordinary definition) type).1 =
      (answer env frame group (.ordinary definition) type).1 := by
  obtain ⟨resolver, hsome⟩ := Option.isSome_iff_exists.mp hr
  have hsame : (env.withDefault fallback).registry.resolvers = env.registry.resolvers := rfl
  simp only [answer, Registry.resolver?, hsame, hsome]
  rfl

variable {fallback : Option Resolver} {root : ObjectFrame} {top : List Selection}

/-- Whatever occurs is answered alike. -/
theorem Environment.LeavesAlike.veils (h : env.LeavesAlike fallback root top) :
    (env.registry.setFallback fallback).Veils env root top where
  authorizers := rfl
  scalars := rfl
  answers frame group found type ho hl := by
    have hsame : (answer (env.withDefault fallback) frame group found type).1 =
        (answer env frame group found type).1 := by
      cases found with
      | introspection field => rfl
      | ordinary definition =>
        cases hr : env.registry.registers frame.type.name group.node.name with
        | true => exact answer_registered definition fallback hr
        | false =>
          have hr' : (env.withDefault fallback).registry.registers frame.type.name
              group.node.name = false := hr
          rw [answer_unregistered definition hr, h frame group definition type ho hl hr,
            answer_unregistered definition hr']
    have hreply : answer { env with registry := env.registry.setFallback fallback } frame group
        found type = answer (env.withDefault fallback) frame group found type := rfl
    rw [hreply, hsame]
    exact ⟨rfl, .refl (.refl type) _⟩

/-- Two defaults that answer the fields of the standard types alike answer alike whatever a request
for introspection leaves to them. -/
theorem Environment.leavesAlike_standard (hs : Schema.standard.types <+: env.schema.types)
    (hroot : (Occurrence.object root top).Shown env)
    (h : ∀ owner, .object owner ∈ Schema.standard.types → ∀ field ∈ owner.fields,
      env.registry.registers owner.name field.name = false →
        ∀ parent args context (info : ResolverInfo), info.parentType = owner.name →
          info.fieldName = field.name → env.registry.leave parent args context info =
            (env.registry.setFallback fallback).leave parent args context info) :
    env.LeavesAlike fallback root top := by
  intro frame group definition type ho hl hn
  obtain ⟨hfound, -⟩ := lookup_ok hl
  rcases ho.shown (Introspection.showsConcrete_standard hs) hroot with ⟨owner, howner, ht⟩ | hnone
  · rw [howner] at hfound
    have hname := Schema.name_of_ordinary hfound
    have htype : frame.type.name = owner.name := congrArg TypeDefOf.name howner
    rw [htype, ← hname] at hn
    exact h owner (ht.mem_standard hs).1 definition (Schema.mem_fields_of_ordinary hfound) hn
      frame.value _ env.context _ htype hname.symm
  · exact absurd hfound (hnone definition)

end Answers

namespace Executor

/-- The executor with another default resolver, or with none. -/
def withDefault (executor : Executor) (fallback : Option Resolver) : Executor :=
  { executor with registry := executor.registry.setFallback fallback }

variable {executor : Executor} {schema : Schema} {request : Request} {fallback : Option Resolver}

theorem sameResponses_withDefault
    (h : ∀ operation rootType,
      request.document.operation? request.operationName = .ok operation →
      schema.rootType (operation.withDefaults request.context) operation.kind = .ok rootType →
      (executor.environment schema request operation).LeavesAlike fallback
        { path := [], type := rootType, value := request.root } operation.selections) :
    executor.SameResponses (executor.withDefault fallback) schema request := by
  have hveils : executor.Veils (executor.withDefault fallback) schema request :=
    ⟨rfl, fun operation rootType ho ht => (h operation rootType ho ht).veils⟩
  exact hveils.responses

/-- **Introspection depends on the default resolver through the fields that are left to it only.**
A request has the same responses with two defaults that answer alike whatever occurs in it and has
no resolver of its own. For a request for introspection it is enough, where the schema keeps the
standard types, that they answer the fields of these types alike. -/
theorem responses_withDefault (executor : Executor) (schema : Schema) (request : Request)
    (fallback : Option Resolver) :
    ((∀ operation rootType,
        request.document.operation? request.operationName = .ok operation →
        schema.rootType (operation.withDefaults request.context) operation.kind = .ok rootType →
        (executor.environment schema request operation).LeavesAlike fallback
          { path := [], type := rootType, value := request.root } operation.selections) →
      executor.SameResponses (executor.withDefault fallback) schema request) ∧
    (Schema.standard.types <+: schema.types →
      (∀ operation rootType,
        request.document.operation? request.operationName = .ok operation →
        schema.rootType (operation.withDefaults request.context) operation.kind = .ok rootType →
        (executor.environment schema request operation).Introspects rootType
          operation.selections) →
      (∀ owner, .object owner ∈ Schema.standard.types → ∀ field ∈ owner.fields,
        executor.registry.registers owner.name field.name = false →
          ∀ parent args context (info : ResolverInfo), info.parentType = owner.name →
            info.fieldName = field.name → executor.registry.leave parent args context info =
              (executor.registry.setFallback fallback).leave parent args context info) →
      executor.SameResponses (executor.withDefault fallback) schema request) := by
  refine ⟨sameResponses_withDefault, fun hs hi h => sameResponses_withDefault ?_⟩
  intro operation rootType ho ht
  exact Environment.leavesAlike_standard hs (shown_root (hi operation rootType ho ht)) h

end Executor

namespace Sample

/-- Reads the properties of what introspection describes and says nothing of anything else. -/
def discreet : Resolver where
  resolve parent args context info :=
    if info.parentType ∈ Schema.standard.types.map TypeDefOf.name then
      Property.resolver.resolve parent args context info
    else .ready (.value (.str "Ask someone else"))

theorem discreet_leaves (owner : ObjectDef) (ho : .object owner ∈ Schema.standard.types)
    (parent : Json) (args : ResolverArgs) (context : Context) (info : ResolverInfo)
    (hi : info.parentType = owner.name) :
    Registry.standard.leave parent args context info =
      (Registry.standard.setFallback (some discreet)).leave parent args context info := by
  have hm : info.parentType ∈ Schema.standard.types.map TypeDefOf.name :=
    hi ▸ List.mem_map_of_mem ho
  have hread : discreet.resolve parent args context info =
      Property.resolver.resolve parent args context info := if_pos hm
  exact hread.symm

/-- A schema with one field. -/
def sparse : Schema :=
  { Schema.standard with
    queryType := some "Query"
    types := Schema.standard.types ++
      [.object { name := "Query", fields := [{ name := "a", type := .late "String" }] }] }

/-- Asks for the name of a type by its name. -/
def nameOfQuery : FieldNode where
  name := "__type"
  arguments := [("name", .str "Query")]
  selections := [.field { name := "name" }]

def naming : Operation where
  selections := [.field nameOfQuery]

def callByName : Request where
  document := { operations := [naming] }

theorem naming_introspects (executor : Executor) {rootType : TypeDef}
    (ht : sparse.rootType {} .query = .ok rootType) :
    (executor.environment sparse callByName naming).Introspects rootType
      naming.selections := by
  obtain rfl := Except.ok.inj ht
  intro groups hg group hm definition hf
  have hgroups : groups = [{ key := "__type", node := nameOfQuery }] :=
    Except.ok.inj (hg.symm.trans (by cbv))
  rw [hgroups] at hm
  obtain rfl := List.mem_singleton.mp hm
  cases hf

end Sample

namespace Executor

open Sample

/-- A default that leaves the introspection types as they are goes unnoticed, in place of the one
that reads properties and replaced by it. -/
theorem discreet_unnoticed :
    ({} : Executor).SameResponses (({} : Executor).withDefault (some discreet)) sparse
        callByName ∧
      (({} : Executor).withDefault (some discreet)).SameResponses {} sparse callByName := by
  have hi : ∀ (executor : Executor) operation rootType,
      callByName.document.operation? callByName.operationName = .ok operation →
      sparse.rootType (operation.withDefaults callByName.context) operation.kind = .ok rootType →
      (executor.environment sparse callByName operation).Introspects rootType
        operation.selections := by
    intro executor operation rootType ho ht
    obtain rfl := Except.ok.inj ho
    exact naming_introspects executor ht
  constructor
  · refine (responses_withDefault {} sparse callByName (some discreet)).1
      fun operation rootType ho ht => Environment.leavesAlike_standard ⟨_, rfl⟩
        (shown_root (hi {} operation rootType ho ht)) ?_
    exact fun owner ho _ _ _ parent args context info hp _ =>
      discreet_leaves owner ho parent args context info hp
  · refine (responses_withDefault (({} : Executor).withDefault (some discreet)) sparse callByName
      (some Property.resolver)).2 ⟨_, rfl⟩ (hi _) ?_
    exact fun owner ho _ _ _ parent args context info hp _ =>
      (discreet_leaves owner ho parent args context info hp).symm

set_option maxRecDepth 20000 in
/-- Without a default resolver types have no names. -/
theorem name_lost :
    (∀ rootType, sparse.rootType {} .query = .ok rootType →
      (({} : Executor).environment sparse callByName naming).Introspects rootType
        naming.selections) ∧
    (({} : Executor).execute sparse callByName 60).map
        (Except.map fun execution => execution.response.data) =
      some (.ok (.obj [("__type", .obj [("name", .str "Query")])])) ∧
    ((({} : Executor).withDefault none).execute sparse callByName 60).map
        (Except.map fun execution => execution.response.data) =
      some (.ok (.obj [("__type", .obj [("name", .null)])])) := by
  refine ⟨fun rootType ht => naming_introspects {} ht, ?_, ?_⟩
  · cbv
  · cbv

end Executor

end GraphQL
