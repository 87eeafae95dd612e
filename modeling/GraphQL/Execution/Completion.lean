import GraphQL.Execution.State
import GraphQL.Execution.Task
import GraphQL.Schema.Lookup

/-!
# Completion

How a settled value becomes data. It is shaped by the declared type of its site: a list is written
with all places pending and its elements are settled as siblings, a leaf is coerced and written, a
value of an abstract type is narrowed to an object type, and an object is authorized before its
selections are executed.
-/

namespace GraphQL

namespace State

/-- Ends the completion at a site with a null, which collapses what holds it where the declared
type does not admit null. -/
def writeNull (state : State) (site : Site) (errors : List ResponseError) : State :=
  (state.report errors).write site.path .null site.type.isNonNull

def fail (state : State) (site : Site) (error : CompletionError) : State :=
  state.writeNull site [site.failure error]

def declareItems (state : State) (sites : List Site) : State :=
  sites.foldl (fun state site => state.declare site.path site.type) state

end State

namespace Completion

/-- The elements of a list, if the content is one. -/
def items? : Content → Option (List Resolution)
  | .items items => some items
  | .value (.arr values) => some (values.map fun value => .ready (.value value))
  | .value _ => none

def completeList (env : Environment) (site : Site) (itemType : TypeRef) (content : Content)
    (state : State) : Task × State :=
  match items? content with
  | none => (.done, state.fail site .listExpected)
  | some items =>
    let sites := (List.range items.length).map (site.item itemType)
    let tasks := (sites.zip items).map fun (site, item) => .work (.settle site .complete item)
    (.dispatch env.config.maxParallelDepth site.path.length tasks,
      (state.write site.path (.list items.length) false).declareItems sites)

/-- Writes the coerced value of a leaf. A value that is coerced to null is a null. -/
def completeLeaf (env : Environment) (site : Site) (type : Leaf.LeafDef) (content : Content)
    (state : State) : State :=
  match content with
  | .items _ => state.fail site (.listForLeaf type.name)
  | .value value =>
    match Leaf.coerce env.registry.scalars type value with
    | .error message => state.fail site (.leafRefused message)
    | .ok .null =>
      state.writeNull site (if site.type.isNonNull then [site.failure .nullNotAllowed] else [])
    | .ok output => state.write site.path (.leaf output) false

/-- Asks for the value as which an object is exposed. -/
def completeObject (env : Environment) (site : Site) (type : ObjectDef) (content : Content)
    (state : State) : Task × State :=
  match content with
  | .items _ => (.done, state.fail site .listForObject)
  | .value value =>
    let asked := match env.registry.authorizer? type.name with
      | some _ => state.note (.authorized site.path type.name value)
      | none => state
    (.work (.settle site (.enter type) (env.registry.authorize type value env.context)), asked)

def completeAbstract (env : Environment) (site : Site) (type : TypeDef) (content : Content)
    (state : State) : Task × State :=
  let narrowed := match content with
    | .value value => env.schema.concreteType? env.context type value
    | .items _ => none
  match narrowed with
  | some object => completeObject env site object content state
  | none => (.done, state.fail site (.unresolvedType type.name))

def completeAt (env : Environment) (site : Site) (type : TypeDef) (content : Content)
    (state : State) : Task × State :=
  match type with
  | .scalar definition => (.done, completeLeaf env site (.scalar definition) content state)
  | .enum definition => (.done, completeLeaf env site (.enum definition) content state)
  | .union _ => completeAbstract env site type content state
  | .interface _ => completeAbstract env site type content state
  | .object definition => completeObject env site definition content state
  | .inputObject definition => (.fault (.inputTypeAsOutput definition.name), state)

/-- Completes a value at a site by what is left of its declared type. -/
def complete (env : Environment) (site : Site) (content : Content) (state : State) :
    TypeRef → Task × State
  | .nonNull inner => complete env site content state inner
  | .list item => completeList env site item content state
  | .resolved definition => completeAt env site definition content state
  | .late name =>
    match env.schema.visibleType? env.context name with
    | some definition => completeAt env site definition content state
    | none => (.fault (.unknownType name), state)

def enter (site : Site) (type : ObjectDef) (content : Content) (state : State) : Task × State :=
  match content with
  | .items _ => (.done, state.fail site (.listForAuthorized type.name))
  | .value value =>
    let frame : ObjectFrame := { path := site.path, type := .object type, value }
    (.work (.select frame site.field.selections false), state)

def resume (site : Site) (purpose : Purpose) (value : FieldValue) (state : State) :
    Task × State :=
  match site.route value with
  | .skipped => (.done, state)
  | .null errors => (.done, state.writeNull site errors)
  | .content content =>
    match purpose with
    | .complete => (.work (.complete site content), state)
    | .enter type => enter site type content state

end Completion

end GraphQL
