import GraphQL.Execution.Machine

/-!
# The executor

Answers requests: it selects the operation, fills in the defaults of its variables and executes
its selections on the root value. The fields at the root of a mutation are executed one after
another.
-/

namespace GraphQL

structure Request where
  document : Document
  operationName : Option String := none
  root : Json := .obj []
  context : Context := {}

structure Executor where
  config : Config := {}
  registry : Registry := .standard

structure Execution where
  response : Response
  elapsed : Nat
  history : List (Nat × Event)

def Operation.withDefaults (operation : Operation) (context : Context) : Context :=
  operation.variableDefs.foldl (fun context definition =>
    match definition.defaultValue.bind (InputValue.value? []) with
    | some value =>
      if Members.contains definition.name context.bindings then context
      else { context with bindings := Members.set definition.name value context.bindings }
    | none => context) context

namespace Machine

def start (operation : Operation) (rootType : TypeDef) (root : Json) : Machine :=
  let frame : ObjectFrame := { path := [], type := rootType, value := root }
  { task := .work (.select frame operation.selections (operation.kind == .mutation)) }

def result? (machine : Machine) : Option (Except Fault Execution) :=
  machine.task.outcome?.map fun outcome => outcome.map fun _ =>
    { response := machine.state.tree.response
      elapsed := machine.state.clock
      history := machine.state.history.reverse }

end Machine

namespace Executor

/-- The environment of a request and the machine that executes it. -/
def start (executor : Executor) (schema : Schema) (request : Request) :
    Except Fault (Environment × Machine) := do
  let operation ← request.document.operation? request.operationName
  let context := operation.withDefaults request.context
  let rootType ← schema.rootType context operation.kind
  let env : Environment :=
    { schema, document := request.document, registry := executor.registry,
      config := executor.config, context }
  return (env, .start operation rootType request.root)

/-- Executes a request. Nothing if the execution has not ended after as many moves as given. -/
def execute (executor : Executor) (schema : Schema) (request : Request) (moves : Nat) :
    Option (Except Fault Execution) :=
  match executor.start schema request with
  | .error fault => some (.error fault)
  | .ok (env, machine) => (machine.run env moves).bind Machine.result?

def summary (executor : Executor) : String :=
  "Executor \x7b config: " ++ executor.config.summary ++ ", resolvers: " ++
    executor.registry.summary ++ " \x7d"

end Executor

end GraphQL
