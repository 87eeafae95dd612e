import GraphQL.Execution.State
import GraphQL.Execution.Task
import GraphQL.Introspection.Resolvers

/-!
# Preparation

What is done for the fields of an object before any of their values is settled: the selections are
gathered, the object is written with its response keys, and then, field by field, the definition
is looked up and the declared type recorded, the field is left out if its object is seen to have
collapsed, and the resolver is called.
-/

namespace GraphQL

namespace Preparation

def arguments (env : Environment) (definition : FieldDef) (node : FieldNode) (path : Path) :
    ResolverArgs where
  values := Arguments.build definition.arguments node.arguments env.context.bindings
  node := if definition.extras.contains .node then some node else none
  collector :=
    if definition.extras.contains .errors then some { path, position := node.position } else none

/-- The value of an ordinary field. Without a resolver it is null. -/
def callResolver (env : Environment) (frame : ObjectFrame) (site : Site) (args : ResolverArgs)
    (state : State) : Resolution × State :=
  let typeName := frame.type.name
  let fieldName := site.field.fieldName
  match env.registry.resolver? typeName fieldName with
  | none => (.ready (.value .null), state)
  | some (resolver, source) =>
    let info : ResolverInfo :=
      { fieldName, parentType := typeName, returnType := site.type.text, path := site.path,
        schema := some env.schema }
    let reply := resolver.resolve frame.value args env.context info
    let called := state.note
      (.called site.path typeName fieldName frame.value resolver source)
    (reply.resolution, called.reportTo site.field.collector reply.reports)

def answer (env : Environment) (frame : ObjectFrame) (site : Site) (args : ResolverArgs)
    (state : State) : FieldLookup → Resolution × State
  | .introspection field =>
    (.ready (Introspection.answer env.schema env.context env.config.introspection frame.type args
      field), state)
  | .ordinary _ => callResolver env frame site args state

def isPruned (env : Environment) (frame : ObjectFrame) (state : State) : Bool :=
  env.config.pruneCollapsedSubtrees && !state.tree.isLive frame.path

def lookup (env : Environment) (frame : ObjectFrame) (group : FieldGroup) :
    Except Fault (FieldLookup × TypeRef) :=
  match env.schema.field? frame.type group.node.name with
  | none => .error (.unknownField frame.type.name group.node.name)
  | some found =>
    match env.schema.resolve env.context found.definition.type with
    | .error fault => .error fault
    | .ok type => .ok (found, type)

/-- A field at its site, with its value. -/
def ask (env : Environment) (frame : ObjectFrame) (group : FieldGroup) (found : FieldLookup)
    (type : TypeRef) (state : State) : (Site × Resolution) × State :=
  let path := frame.path.key group.key
  let args := arguments env found.definition group.node path
  let field : FieldSite :=
    { parentType := frame.type.name, fieldName := group.node.name,
      position := group.node.position, selections := group.selections,
      collector := args.collector }
  let site : Site := { field, path, type }
  let opened :=
    if env.config.tracing then state.note (.opened path field.parentType field.fieldName)
    else state
  let (resolution, answered) := answer env frame site args opened found
  ((site, resolution), answered)

/-- A step of the preparation of a field, for work that is `going` until the field is prepared or
left out. Nothing holds the tree from one step to the next. The definition found in the first step
is looked up again for the last: neither the schema nor the context changes. -/
def prepareField (env : Environment) (frame : ObjectFrame) (group : FieldGroup)
    (going : Phase → Work) (finished : Option (Site × Resolution) → Task) (state : State) :
    Phase → Task × State
  | .declare =>
    match lookup env frame group with
    | .error fault => (.fault fault, state)
    | .ok (_, type) => (.work (going .check), state.declare (frame.path.key group.key) type)
  | .check =>
    if isPruned env frame state then (finished none, state) else (.work (going .call), state)
  | .call =>
    match lookup env frame group with
    | .error fault => (.fault fault, state)
    | .ok (found, type) =>
      let (prepared, state) := ask env frame group found type state
      (finished (some prepared), state)

def settling (prepared : Site × Resolution) : Task :=
  .work (.settle prepared.1 .complete prepared.2)

/-- Gathers the selections of an object and writes the object with its keys. -/
def select (env : Environment) (frame : ObjectFrame) (selections : List Selection)
    (serial : Bool) (state : State) : Task × State :=
  match Gathering.collect env.schema env.document env.context frame.type selections with
  | .error fault => (.fault fault, state)
  | .ok groups =>
    let task : Task :=
      if serial then .inOrder (groups.map fun group => .work (.field frame .declare group))
      else .work (.prepare frame .declare groups [])
    (task, state.write frame.path (.object (groups.map FieldGroup.key)) false)

/-- Prepares the next field of an object; when there is none, the prepared fields are completed
as siblings. -/
def prepare (env : Environment) (frame : ObjectFrame) (phase : Phase) (groups : List FieldGroup)
    (prepared : List (Site × Resolution)) (state : State) : Task × State :=
  match groups with
  | [] =>
    (.dispatch env.config.maxParallelDepth frame.path.length (prepared.map settling), state)
  | group :: rest =>
    prepareField env frame group (fun phase => .prepare frame phase (group :: rest) prepared)
      (fun next => .work (.prepare frame .declare rest (prepared ++ next.toList))) state phase

/-- Prepares a field that is completed before the next one is prepared. -/
def prepareAlone (env : Environment) (frame : ObjectFrame) (phase : Phase) (group : FieldGroup)
    (state : State) : Task × State :=
  prepareField env frame group (fun phase => .field frame phase group)
    (fun next => next.elim .done settling) state phase

end Preparation

end GraphQL
