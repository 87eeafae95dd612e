import GraphQL.Proofs.Compilation
import GraphQL.Proofs.Concealment
import GraphQL.Proofs.Correspondence
import GraphQL.Proofs.Following
import GraphQL.Proofs.Literals

/-!
# Requests without variables

The variables of a request can be put into its document before it is executed. The literal of its
value takes the place of a variable, in the arguments of fields and of directives at any depth; what
stands for a variable without a value is left out. The request that is left declares no variables
and binds none, and is answered as the request is, unless the application itself asks for the values
of variables or for the nodes of fields.
-/

namespace GraphQL

open Reference

/-- The context without values of variables. -/
def Context.unbound (context : Context) : Context := { context with bindings := [] }

section Filled

variable (bindings : Members Json)

def Directive.filled (directive : Directive) : Directive :=
  { directive with arguments := InputValue.filledEntries bindings directive.arguments }

namespace Selection

mutual

/-- The selection with the literals of their values in place of variables. -/
def filled : Selection → Selection
  | field ⟨aliasName, name, arguments, directives, selections, position⟩ =>
    field ⟨aliasName, name, InputValue.filledEntries bindings arguments,
      directives.map (Directive.filled bindings), filledAll selections, position⟩
  | inline condition directives selections =>
    inline condition (directives.map (Directive.filled bindings)) (filledAll selections)
  | spread name directives => spread name (directives.map (Directive.filled bindings))

def filledAll : List Selection → List Selection
  | [] => []
  | selection :: rest => filled selection :: filledAll rest

end

theorem filledAll_eq (selections : List Selection) :
    filledAll bindings selections = selections.map (filled bindings) := by
  induction selections with
  | nil => rfl
  | cons selection rest ih => rw [filledAll, ih, List.map_cons]

end Selection

/-- A field with the literals of their values in place of variables. -/
def FieldNodeOf.filled (node : FieldNode) : FieldNode :=
  { node with
    arguments := InputValue.filledEntries bindings node.arguments
    directives := node.directives.map (Directive.filled bindings)
    selections := node.selections.map (Selection.filled bindings) }

theorem Selection.filled_field (node : FieldNode) :
    (field node).filled bindings = field (node.filled bindings) := by
  rw [filled, filledAll_eq]
  rfl

theorem Selection.filled_inline (condition : Option String) (directives : List Directive)
    (selections : List Selection) : (inline condition directives selections).filled bindings =
      inline condition (directives.map (Directive.filled bindings))
        (selections.map (filled bindings)) := by
  rw [filled, filledAll_eq]

def FragmentDef.filled (fragment : FragmentDef) : FragmentDef :=
  { fragment with selections := fragment.selections.map (Selection.filled bindings) }

/-- An operation that declares no variables. -/
def Operation.filled (operation : Operation) : Operation :=
  { operation with
    variableDefs := [], selections := operation.selections.map (Selection.filled bindings) }

def Document.filled (document : Document) : Document where
  operations := document.operations.map (Operation.filled bindings)
  fragments := document.fragments.map (FragmentDef.filled bindings)

/-- The fields of a group with the literals of their values in place of variables. -/
def FieldGroup.filled : FieldGroup → FieldGroup := mapNodes (FieldNodeOf.filled bindings)

end Filled

/-- The values of the variables of a request: those that it gives and the defaults of its
operation. -/
def Request.bindings (request : Request) : Members Json :=
  match request.document.operation? request.operationName with
  | .ok operation => (operation.withDefaults request.context).bindings
  | .error _ => request.context.bindings

/-- The request with the literals of their values in place of its variables. -/
def Request.withoutVariables (request : Request) : Request :=
  { request with
    document := request.document.filled request.bindings, context := request.context.unbound }

/-- A selection that mentions no variable. -/
inductive Selection.Literal : Selection → Prop where
  | field {node : FieldNode} (arguments : InputValue.entriesAreLiteral node.arguments = true)
      (directives : ∀ directive ∈ node.directives,
        InputValue.entriesAreLiteral directive.arguments = true)
      (each : ∀ selection ∈ node.selections, Literal selection) : Literal (.field node)
  | inline (condition : Option String) {directives : List Directive} {selections : List Selection}
      (given : ∀ directive ∈ directives, InputValue.entriesAreLiteral directive.arguments = true)
      (each : ∀ selection ∈ selections, Literal selection) :
      Literal (.inline condition directives selections)
  | spread (name : String) {directives : List Directive}
      (given : ∀ directive ∈ directives, InputValue.entriesAreLiteral directive.arguments = true) :
      Literal (.spread name directives)

/-- A request that has no variables: none is bound, declared or mentioned. -/
structure Request.FreeOfVariables (request : Request) : Prop where
  bindings : request.context.bindings = []
  declared : ∀ operation ∈ request.document.operations, operation.variableDefs = []
  operations : ∀ operation ∈ request.document.operations,
    ∀ selection ∈ operation.selections, selection.Literal
  fragments : ∀ fragment ∈ request.document.fragments,
    ∀ selection ∈ fragment.selections, selection.Literal

section Free

variable (bindings : Members Json)

theorem Selection.literal_filled (selection : Selection) : (selection.filled bindings).Literal := by
  have hdirectives : ∀ directives : List Directive,
      ∀ directive ∈ directives.map (Directive.filled bindings),
        InputValue.entriesAreLiteral directive.arguments = true := by
    intro directives directive hm
    obtain ⟨original, -, rfl⟩ := List.mem_map.mp hm
    exact InputValue.entriesAreLiteral_filledEntries original.arguments
  have hselections : ∀ selections : List Selection,
      (∀ selection ∈ selections, (selection.filled bindings).Literal) →
        ∀ selection ∈ selections.map (filled bindings), selection.Literal := by
    intro selections hs selection hm
    obtain ⟨original, horiginal, rfl⟩ := List.mem_map.mp hm
    exact hs original horiginal
  induction selection with
  | field node ih =>
    rw [filled_field]
    exact .field (InputValue.entriesAreLiteral_filledEntries node.arguments)
      (hdirectives node.directives) (hselections node.selections ih)
  | inline condition directives selections ih =>
    rw [filled_inline]
    exact .inline condition (hdirectives directives) (hselections selections ih)
  | spread name directives =>
    rw [filled]
    exact .spread name (hdirectives directives)

theorem Request.free_withoutVariables (request : Request) :
    request.withoutVariables.FreeOfVariables where
  bindings := rfl
  declared operation ho := by
    obtain ⟨original, -, rfl⟩ := List.mem_map.mp ho
    rfl
  operations operation ho selection hs := by
    obtain ⟨original, -, rfl⟩ := List.mem_map.mp ho
    obtain ⟨origin, -, rfl⟩ := List.mem_map.mp hs
    exact origin.literal_filled _
  fragments fragment hf selection hs := by
    obtain ⟨original, -, rfl⟩ := List.mem_map.mp hf
    obtain ⟨origin, -, rfl⟩ := List.mem_map.mp hs
    exact origin.literal_filled _

end Free

/-- The hooks of the schema do not ask for the values of variables. -/
structure Schema.IgnoresVariables (schema : Schema) : Prop where
  visibility : ∀ visible, schema.visibility = some visible → ∀ type context,
    visible type context.unbound = visible type context
  typeResolvers : ∀ name resolver, Members.get? name schema.typeResolvers = some resolver →
    ∀ value context, resolver value context.unbound = resolver value context

/-- A resolver of fields of the schema asks neither for the values of variables nor for the node. -/
def Resolver.IgnoresVariables (schema : Schema) (resolver : Resolver) : Prop :=
  ∀ parent (args : ResolverArgs) node context (info : ResolverInfo), info.schema = some schema →
    resolver.resolve parent { args with node } context.unbound info =
      resolver.resolve parent args context info

/-- The resolvers and authorizers of an application ask neither for the values of variables nor for
nodes. -/
structure Registry.IgnoresVariables (registry : Registry) (schema : Schema) : Prop where
  resolvers : ∀ typeName fieldName resolver source,
    registry.resolver? typeName fieldName = some (resolver, source) →
      resolver.IgnoresVariables schema
  authorizers : ∀ typeName authorizer, registry.authorizer? typeName = some authorizer →
    ∀ type value context, authorizer type value context.unbound = authorizer type value context

namespace Schema.IgnoresVariables

variable {schema : Schema} (h : schema.IgnoresVariables) (context : Context)

include h

theorem visibleType?_unbound :
    schema.visibleType? context.unbound = schema.visibleType? context := by
  funext name
  rw [visibleType?, visibleType?]
  cases hv : schema.visibility with
  | none => cases schema.type? name <;> rfl
  | some visible =>
    cases schema.type? name with
    | none => rfl
    | some definition =>
      dsimp only
      rw [h.visibility visible hv]

theorem concreteType?_unbound (type : TypeDef) (value : Json) :
    schema.concreteType? context.unbound type value = schema.concreteType? context type value := by
  have hname : schema.concreteName? context.unbound type value =
      schema.concreteName? context type value := by
    rw [concreteName?, concreteName?]
    cases hr : Members.get? type.name schema.typeResolvers with
    | none => rfl
    | some resolver => rw [Option.bind_some, Option.bind_some, h.typeResolvers _ resolver hr]
  rw [concreteType?, concreteType?, hname, h.visibleType?_unbound]

theorem rootType_unbound (kind : OperationKind) :
    schema.rootType context.unbound kind = schema.rootType context kind := by
  rw [rootType, rootType, h.visibleType?_unbound]

theorem resolve_unbound (type : TypeRef) :
    schema.resolve context.unbound type = schema.resolve context type := by
  cases type with
  | late name => rw [resolve, resolve, h.visibleType?_unbound]
  | _ => rfl

end Schema.IgnoresVariables

namespace Introspection

variable {schema : Schema} (h : schema.IgnoresVariables)

include h

theorem answer_unbound (context : Context) (enabled : Bool) (type : TypeDef) (args : ResolverArgs)
    (node : Option FieldNode) (field : MetaField) :
    answer schema context.unbound enabled type { args with node } field =
      answer schema context enabled type args field := by
  cases field with
  | typename => rfl
  | schema =>
    simp only [answer, describeSchema, describeNamed, h.visibleType?_unbound]
  | type =>
    simp only [answer, describeNamed, h.visibleType?_unbound]
    rfl

theorem listing_ignoresVariables
    {describe : Schema → Context → ResolverArgs → TypeDef → Option (List Json)}
    (hd : ∀ context (args : ResolverArgs) node type,
      describe schema context.unbound { args with node } type = describe schema context args type) :
    (listing describe).IgnoresVariables schema := by
  intro parent args node context info hi
  simp only [listing, hi, Option.bind_eq_bind, Option.bind_some, h.visibleType?_unbound, hd]

/-- What introspection lists does not depend on variables. -/
theorem listings_ignoreVariables {entry : String × Resolver} (hm : entry ∈ listings) :
    entry.2.IgnoresVariables schema := by
  simp only [listings, List.mem_cons, List.not_mem_nil, or_false] at hm
  rcases hm with rfl | rfl | rfl | rfl | rfl
  · exact listing_ignoresVariables h fun _ _ _ _ => rfl
  · refine listing_ignoresVariables h fun _ _ _ _ => ?_
    simp only [describeInterfaces, h.visibleType?_unbound]
  · refine listing_ignoresVariables h fun _ _ _ _ => ?_
    simp only [describePossibleTypes, h.visibleType?_unbound]
  · exact listing_ignoresVariables h fun _ _ _ _ => rfl
  · exact listing_ignoresVariables h fun _ _ _ _ => rfl

end Introspection

/-- The resolvers from which an application starts depend on variables no more than its schema
does. -/
theorem Registry.standard_ignoresVariables {schema : Schema} (h : schema.IgnoresVariables) :
    Registry.standard.IgnoresVariables schema where
  resolvers typeName fieldName resolver source hr := by
    rcases Registry.standard_resolver_cases hr with rfl | ⟨entry, hm, rfl⟩
    · exact fun _ _ _ _ _ _ => rfl
    · exact Introspection.listings_ignoreVariables h hm
  authorizers _ _ ha := nomatch ha

section Gathered

variable {schema : Schema} {context : Context}
  (h : Json.membersAreWritable context.bindings = true)

include h

theorem Arguments.build_filled (definitions : List InputFieldDef)
    (supplied : List (String × InputValue)) :
    build definitions (InputValue.filledEntries context.bindings supplied) [] =
      build definitions supplied context.bindings := by
  rw [build, build, InputValue.entryValues_filled context.bindings h]

/-- The same selections are included. -/
theorem shouldInclude_filled (directives : List Directive) :
    shouldInclude schema [] (directives.map (Directive.filled context.bindings)) =
      shouldInclude schema context.bindings directives := by
  have hadmits : ∀ directive : Directive,
      (directive.filled context.bindings).admits schema [] =
        directive.admits schema context.bindings := by
    intro directive
    have hcondition : (directive.filled context.bindings).condition? schema [] =
        directive.condition? schema context.bindings := by
      rw [Directive.condition?, Directive.condition?]
      exact congrArg (fun arguments => (Members.get? "if" arguments).bind Json.asBool?)
        (Arguments.build_filled h _ _)
    rw [Directive.admits, Directive.admits, hcondition]
    rfl
  rw [shouldInclude, shouldInclude, List.all_map]
  exact congrArg directives.all (funext hadmits)

namespace Gathering

variable (hs : schema.IgnoresVariables) (document : Document) (runtimeType : TypeDef)

omit h in
/-- A point of the gathering of a request without variables. -/
def Point.filled (bindings : Members Json) (point : Point) : Point where
  visited := point.visited
  groups := point.groups.map (FieldGroup.filled bindings)
  work := point.work.map (Selection.filled bindings)

def Turn.filled (bindings : Members Json) : Turn → Turn
  | finished => finished
  | added node next => added (node.filled bindings) (next.filled bindings)
  | entered condition next => entered condition (next.filled bindings)
  | omitted next => omitted (next.filled bindings)

omit h in
theorem Turn.next?_filled (bindings : Members Json) (turned : Turn) :
    (turned.filled bindings).next? = turned.next?.map (Point.filled bindings) := by
  cases turned <;> rfl

include hs

omit h in
theorem applies_unbound (condition : String) :
    applies schema context.unbound condition runtimeType =
      applies schema context condition runtimeType := by
  rw [applies, applies, hs.visibleType?_unbound]

omit h in
theorem appliesIfAny_unbound (condition : Option String) :
    appliesIfAny schema context.unbound condition runtimeType =
      appliesIfAny schema context condition runtimeType := by
  cases condition with
  | none => rfl
  | some condition => exact applies_unbound hs runtimeType condition

theorem turnOn_filled (point : Point) (selection : Selection) :
    turnOn schema (document.filled context.bindings) context.unbound runtimeType
        (point.filled context.bindings) (selection.filled context.bindings) =
      (turnOn schema document context runtimeType point selection).map
        (Turn.filled context.bindings) := by
  have hincluded : ∀ directives : List Directive,
      shouldInclude schema context.unbound.bindings
          (directives.map (Directive.filled context.bindings)) =
        shouldInclude schema context.bindings directives := shouldInclude_filled h
  cases selection with
  | field node =>
    have hadd : FieldGroup.add (node.filled context.bindings)
        (point.groups.map (FieldGroup.filled context.bindings)) =
          (FieldGroup.add node point.groups).map (FieldGroup.filled context.bindings) :=
      @FieldGroup.add_map (FieldNodeOf.filled context.bindings) (fun _ => rfl) node point.groups
    simp only [Selection.filled_field, turnOn, FieldNodeOf.filled, hincluded]
    split
    · simpa [Except.map, Turn.filled, Point.filled, FieldNodeOf.filled] using hadd
    · rfl
  | inline condition directives selections =>
    simp only [Selection.filled_inline, turnOn, hincluded, appliesIfAny_unbound hs]
    split
    · rcases appliesIfAny schema context condition runtimeType with raised | (_ | _)
      · rfl
      · rfl
      · simp [Except.map, Turn.filled, Point.filled]
    · rfl
  | spread name directives =>
    have hfragment : (document.filled context.bindings).fragment? name =
        (document.fragment? name).map (FragmentDef.filled context.bindings) := by
      simp only [Document.fragment?, Named.find?, Document.filled, List.find?_map]
      rfl
    have hfollowed : ∀ fragment : FragmentDef,
        applies schema context.unbound (fragment.filled context.bindings).condition runtimeType =
          applies schema context fragment.condition runtimeType :=
      fun fragment => applies_unbound hs runtimeType fragment.condition
    simp only [Selection.filled, turnOn, hfragment, hincluded]
    cases document.fragment? name with
    | none => rfl
    | some fragment =>
      simp only [Option.map_some, Point.filled, hfollowed]
      split
      · rfl
      · split
        · rcases applies schema context fragment.condition runtimeType with raised | (_ | _)
          · rfl
          · rfl
          · simp [Except.map, Turn.filled, Point.filled, FragmentDef.filled]
        · rfl

theorem turn_filled (point : Point) :
    turn schema (document.filled context.bindings) context.unbound runtimeType
        (point.filled context.bindings) =
      (turn schema document context runtimeType point).map (Turn.filled context.bindings) := by
  obtain ⟨visited, groups, work⟩ := point
  cases work with
  | nil => rfl
  | cons selection rest =>
    exact turnOn_filled h hs document runtimeType { visited, groups, work := rest } selection

/-- The same fields are gathered, without their variables. -/
theorem collect_filled (selections : List Selection) :
    collect schema (document.filled context.bindings) context.unbound runtimeType
        (selections.map (Selection.filled context.bindings)) =
      (collect schema document context runtimeType selections).map
        (List.map (FieldGroup.filled context.bindings)) := by
  have hfrom : ∀ point : Point,
      gatherFrom schema (document.filled context.bindings) context.unbound runtimeType
          (point.filled context.bindings) =
        (gatherFrom schema document context runtimeType point).map
          (List.map (FieldGroup.filled context.bindings)) := by
    intro point
    induction point using Point.induction schema document context runtimeType with
    | step point ih =>
      rw [gatherFrom_eq, gatherFrom_eq, turn_filled h hs]
      cases ht : turn schema document context runtimeType point with
      | error raised => rfl
      | ok turned =>
        simp only [Except.map, Turn.next?_filled]
        cases hn : turned.next? with
        | none => rfl
        | some next => exact ih turned next ht hn
  exact hfrom { work := selections }

end Gathering

end Gathered

/-- The environment of the request without variables. -/
def Environment.unbound (env : Environment) : Environment :=
  { env with
    document := env.document.filled env.context.bindings, context := env.context.unbound }

/-- What stands for what in the request without variables: the types are the same. -/
def Correspondence.filled (bindings : Members Json) : Correspondence where
  view := id
  type := Eq
  definition := Eq
  selections selections others := selections.map (Selection.filled bindings) = others
  group group other := group.filled bindings = other

section Corresponding

variable {env : Environment} (hs : env.schema.IgnoresVariables)
  (hr : env.registry.IgnoresVariables env.schema)
  (hw : Json.membersAreWritable env.context.bindings = true)

section Shaping

variable (site : Site) (selections : List Selection) (content : Content)

include hs

theorem Shaped.of_unbound (type : TypeRef) :
    of env.unbound (site.exchange site.type selections) content type =
      of env site content type := by
  have hnamed : ∀ definition : TypeDef,
      ofNamed env.unbound (site.exchange site.type selections) content definition =
        ofNamed env site content definition := by
    intro definition
    have habstract : ofAbstract env.unbound (site.exchange site.type selections) definition content =
        ofAbstract env site definition content := by
      cases content with
      | items items => rfl
      | value value =>
        have hconcrete := hs.concreteType?_unbound env.context definition value
        simp only [ofAbstract, Environment.unbound, hconcrete]
        rfl
    cases definition with
    | union definition => exact habstract
    | interface definition => exact habstract
    | _ => rfl
  induction type with
  | nonNull inner ih => exact ih
  | list item _ => rfl
  | resolved definition => exact hnamed definition
  | late name =>
    have hvisible := hs.visibleType?_unbound env.context
    simp only [of, Environment.unbound, hvisible]
    cases env.schema.visibleType? env.context name with
    | none => rfl
    | some definition => exact hnamed definition

end Shaping

section Fields

variable (frame : ObjectFrame) (group : FieldGroup)

include hs in
theorem lookup_unbound : lookup env.unbound frame (group.filled env.context.bindings) =
    lookup env frame group := by
  have hresolve := hs.resolve_unbound env.context
  simp only [lookup, Environment.unbound, hresolve]
  rfl

include hw in
/-- Of what a resolver is given, only the node mentions variables. -/
theorem arguments_unbound (found : FieldLookup) :
    arguments env.unbound frame (group.filled env.context.bindings) found =
      { arguments env frame group found with
        node := (arguments env frame group found).node.map
          (FieldNodeOf.filled env.context.bindings) } := by
  have hvalues := Arguments.build_filled hw found.definition.arguments group.node.arguments
  have hnode : (if found.definition.extras.contains .node then
        some (group.node.filled env.context.bindings) else none) =
      (if found.definition.extras.contains .node then some group.node else none).map
        (FieldNodeOf.filled env.context.bindings) := by
    split <;> rfl
  rw [arguments, arguments, Preparation.arguments, Preparation.arguments]
  exact congrArg₂ (fun values node => ResolverArgs.mk values node _) hvalues hnode

include hs hr hw in
theorem answer_unbound (found : FieldLookup) (type : TypeRef) :
    answer env.unbound frame (group.filled env.context.bindings) found type =
      answer env frame group found type := by
  unfold answer
  rw [arguments_unbound hw]
  cases found with
  | introspection field =>
    exact congrArg (fun value => (Reply.ready value, ([] : List Call)))
      (Introspection.answer_unbound hs env.context _ frame.type _ _ field)
  | ordinary definition =>
    have hresolver : env.unbound.registry.resolver? frame.type.name
        (group.filled env.context.bindings).node.name =
          env.registry.resolver? frame.type.name group.node.name := rfl
    dsimp only
    rw [hresolver]
    cases hf : env.registry.resolver? frame.type.name group.node.name with
    | none => rfl
    | some entry =>
      exact congrArg (fun reply => (reply, _))
        (hr.resolvers _ _ entry.1 entry.2 hf frame.value _ _ env.context _ rfl)

end Fields

include hs hr hw

/-- The request is executed as the one without variables is. -/
theorem Environment.holds_unbound :
    (Correspondence.filled env.context.bindings).Holds env env.unbound where
  config := rfl
  registry := rfl
  required _ := rfl
  view ht := ht
  name ht := congrArg TypeDefOf.name ht
  group hg := by
    subst hg
    refine ⟨rfl, rfl, rfl, ?_⟩
    simp [Correspondence.filled, FieldGroup.filled, FieldGroup.selections,
      FieldGroup.nodes_mapNodes, FieldNodeOf.filled, List.flatMap_map, List.map_flatMap]
  collect := by
    rintro type _ selections _ rfl rfl
    have hcollect := Gathering.collect_filled hw hs env.document type selections
    rw [Environment.unbound]
    dsimp only
    rw [hcollect]
    cases Gathering.collect env.schema env.document env.context type selections with
    | error raised => exact .error raised
    | ok groups =>
      exact .ok (List.forall₂_map_right_iff.mpr (List.forall₂_same.mpr fun _ _ => rfl))
  field := by
    rintro frame _ group _ ⟨rfl⟩ rfl
    rw [lookup_unbound hs]
    cases hl : lookup env frame group with
    | error raised => exact .error raised
    | ok entry =>
      obtain ⟨found, type⟩ := entry
      refine .ok ⟨rfl, ?_, ?_, ?_⟩
      · cases found with
        | ordinary definition => exact .ordinary _ _
        | introspection field => exact .introspection field
      · exact (congrArg ResolverArgs.collector (arguments_unbound hw frame group found)).symm
      · exact congrArg Prod.fst (answer_unbound hs hr hw frame group found type).symm
  shape {site _} hsite content := by
    cases hsite with | @intro type selections htype _
    obtain rfl : site.type = type := htype
    show Correspondence.Shapes _ _ (Shaped.of env.unbound _ content site.type)
    rw [Shaped.of_unbound hs]
    exact .refl (fun _ => rfl) (fun _ => rfl) _
  authorize := by
    rintro type _ ⟨rfl⟩ value
    rw [Registry.authorize, Registry.authorize, Environment.unbound]
    cases ha : env.registry.authorizer? type.name with
    | none => rfl
    | some authorizer => exact (hr.authorizers _ authorizer ha type value env.context).symm

end Corresponding

namespace Operation

variable (operation : Operation) (context : Context)

/-- Defaults change the values of variables only. -/
theorem unbound_withDefaults : (operation.withDefaults context).unbound = context.unbound := by
  unfold withDefaults
  induction operation.variableDefs generalizing context with
  | nil => rfl
  | cons definition rest ih =>
    rw [List.foldl_cons, ih]
    split
    · split <;> rfl
    · rfl

variable {context} in
/-- The defaults of variables can be written. -/
theorem writable_withDefaults (h : Json.membersAreWritable context.bindings = true) :
    Json.membersAreWritable (operation.withDefaults context).bindings = true := by
  unfold withDefaults
  induction operation.variableDefs generalizing context with
  | nil => exact h
  | cons definition rest ih =>
    rw [List.foldl_cons]
    refine ih ?_
    split
    · next value hv =>
      split
      · exact h
      · obtain ⟨given, -, hgiven⟩ := Option.bind_eq_some_iff.mp hv
        have hvalue : value.isWritable = true := InputValue.isWritable_of_value? rfl hgiven
        refine Json.membersAreWritable_iff.mpr fun member hm => ?_
        rcases Members.mem_set hm with hnew | hold
        · exact hnew ▸ hvalue
        · exact Json.membersAreWritable_iff.mp h member hold
    · exact h

end Operation

namespace Executor

variable {schema : Schema} {request : Request}

/-- The request without variables starts if the request does. -/
theorem start_unbound (executor : Executor) (hs : schema.IgnoresVariables)
    (hr : executor.registry.IgnoresVariables schema)
    (hw : Json.membersAreWritable request.context.bindings = true) :
    StartAlike (State.SeenAlike id) (executor.start schema request)
      (executor.start schema request.withoutVariables) := by
  have hoperation : request.withoutVariables.document.operation? request.operationName =
      (request.document.operation? request.operationName).map
        (Operation.filled request.bindings) := by
    have hoperations : request.withoutVariables.document.operations =
        request.document.operations.map (Operation.filled request.bindings) := rfl
    exact Document.operation?_map hoperations (fun _ => rfl) _
  have hcontext : ∀ operation : Operation,
      (operation.filled request.bindings).withDefaults request.withoutVariables.context =
        (operation.withDefaults request.context).unbound :=
    fun operation => (operation.unbound_withDefaults request.context).symm
  have hname : request.withoutVariables.operationName = request.operationName := rfl
  rw [start_eq, start_eq, hname, hoperation]
  cases ho : request.document.operation? request.operationName with
  | error raised => exact .error raised
  | ok operation =>
    have hbindings : request.bindings = (operation.withDefaults request.context).bindings := by
      rw [Request.bindings, ho]
    have hkind : (operation.filled request.bindings).kind = operation.kind := rfl
    dsimp only [Except.map]
    rw [hcontext, hkind, hs.rootType_unbound]
    cases schema.rootType (operation.withDefaults request.context) operation.kind with
    | error raised => exact .error raised
    | ok rootType =>
      have henv : executor.environment schema request.withoutVariables
          (operation.filled request.bindings) =
            (executor.environment schema request operation).unbound := by
        rw [environment, hcontext]
        simp only [environment, Environment.unbound, Request.withoutVariables, hbindings]
      dsimp only
      rw [henv]
      have hholds : (Correspondence.filled request.bindings).Holds
          (executor.environment schema request operation)
          (executor.environment schema request operation).unbound := by
        rw [hbindings]
        exact @Environment.holds_unbound (executor.environment schema request operation) hs hr
          (operation.writable_withDefaults hw)
      have halike : (Machine.start operation rootType request.root).Alike (State.SeenAlike id)
          (Correspondence.filled request.bindings).Works
          (.start (operation.filled request.bindings) rootType request.root) :=
        Correspondence.start_alike (.filled request.bindings) hkind.symm rfl rfl request.root
      exact .ok ⟨_, hholds.lockstep, halike⟩

/-- **Variables can be compiled away.** The request with the literals of their values in place of
its variables has none, and is answered as the request is: with the same response or fault, after as
many moves and whoever chooses them. -/
theorem variables_compiled_away (executor : Executor) (hs : schema.IgnoresVariables)
    (hr : executor.registry.IgnoresVariables schema)
    (hw : Json.membersAreWritable request.context.bindings = true) :
    request.withoutVariables.FreeOfVariables ∧
      (∀ moves, executor.execute schema request.withoutVariables moves =
        executor.execute schema request moves) ∧
      ∀ result, executor.Reaches schema request.withoutVariables result ↔
        executor.Reaches schema request result := by
  have hstart : StartAlike Eq (executor.start schema request)
      (executor.start schema request.withoutVariables) := by
    have hsame : State.SeenAlike id = Eq := by
      funext state other
      rw [State.SeenAlike, State.viewed_id, State.viewed_id]
    exact hsame ▸ start_unbound executor hs hr hw
  refine ⟨request.free_withoutVariables,
    fun moves => execute_eq_of_alike hstart.symm moves, fun result => ?_⟩
  exact ⟨reaches_of_alike hstart.symm, reaches_of_alike hstart⟩

end Executor

namespace Sample

/-- A field that tells its arguments. -/
def cave : Schema where
  queryType := some "Query"
  types := [.object { name := "Query", fields := [{
      name := "echo"
      type := .late "Any"
      arguments := [{ name := "text", type := .late "Any", defaultValue := some (.str "silence") }] }] },
    .scalar { name := "Any" }]

def echoes : Registry where
  resolvers := [("Query.echo", { resolve := fun _ args _ _ =>
                                   .ready (.value (.obj args.values)) })]

/-- Variables with a value, with a default and with neither: as arguments, inside of a list and of
an object, and in a condition. -/
def calling : Operation where
  variableDefs := [{ name := "text", defaultValue := some (.str "hello") }, { name := "lost" },
    { name := "brief" }]
  selections :=
    [.field { name := "echo", arguments := [("text", .variable "text"),
        ("words", .list [.variable "lost", .variable "text"]),
        ("marks", .object [("first", .variable "lost"), ("second", .null)])] },
      .field { aliasName := some "again", name := "echo", arguments := [("text", .variable "lost")] },
      .field { aliasName := some "more", name := "echo",
               directives := [{ name := "skip", arguments := [("if", .variable "brief")] }] }]

def call : Request where
  document := { operations := [calling] }
  context := { bindings := [("brief", .bool true)] }

theorem cave_ignoresVariables : cave.IgnoresVariables where
  visibility _ h := nomatch h
  typeResolvers _ _ h := nomatch h

theorem echoes_ignoresVariables : echoes.IgnoresVariables cave where
  resolvers typeName fieldName resolver source h := by
    rcases Registry.mem_of_resolver? h with ⟨entry, hm, rfl⟩ | hfallback
    · obtain rfl := List.mem_singleton.mp hm
      exact fun _ _ _ _ _ _ => rfl
    · cases hfallback
  authorizers _ _ h := nomatch h

end Sample

namespace Executor

open Sample

/-- The theorem at a call with all kinds of variables: what is heard is the same. -/
theorem call_without_variables :
    (∀ moves, execute { registry := echoes } cave call.withoutVariables moves =
      execute { registry := echoes } cave call moves) ∧
    (execute { registry := echoes } cave call 20).map
        (Except.map fun execution => execution.response.data) =
      some (.ok (.obj [
        ("echo", .obj [("text", .str "hello"), ("words", .arr [.null, .str "hello"]),
          ("marks", .obj [("second", .null)])]),
        ("again", .obj [("text", .str "silence")])])) := by
  have hw : Json.membersAreWritable call.context.bindings = true := by decide
  obtain ⟨-, hexecute, -⟩ := variables_compiled_away { registry := echoes }
    cave_ignoresVariables echoes_ignoresVariables hw
  refine ⟨hexecute, ?_⟩
  cbv

end Executor

end GraphQL
