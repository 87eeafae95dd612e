import GraphQL.Execution.Config
import GraphQL.Request.Gathering
import GraphQL.Resolver.Registry
import GraphQL.Response.Tree

/-!
# The state of an execution

What an execution reads, the environment, stays the same throughout. What it changes is the result
tree, the clock and the queue for permits. Whatever happens is also noted in a history.
-/

namespace GraphQL

structure Environment where
  schema : Schema
  document : Document
  registry : Registry
  config : Config
  context : Context

/-- A deferred value has its permit from the time it started until it settled. An entry that was
written may not have landed. -/
inductive Event where
  | declared (path : Path) (type : TypeRef)
  | wrote (path : Path) (entry : Entry) (propagating landed : Bool)
  | opened (path : Path) (parentType fieldName : String)
  | called (path : Path) (parentType fieldName : String) (parent : Json) (resolver : Resolver)
    (source : ResolverSource)
  | authorized (path : Path) (typeName : String) (value : Json)
  | started (path : Path) (authorizing : Bool)
  | slept (path : Path) (authorizing : Bool)
  | woke (path : Path) (authorizing : Bool)
  | settled (path : Path) (authorizing : Bool) (value : FieldValue)

/-- The clock counts milliseconds from the start. The history has the latest event first. -/
structure State where
  tree : ResultTree := {}
  clock : Nat := 0
  tickets : Nat := 0
  history : List (Nat × Event) := []

namespace State

def note (state : State) (event : Event) : State :=
  { state with history := (state.clock, event) :: state.history }

def declare (state : State) (path : Path) (type : TypeRef) : State :=
  { state with tree := state.tree.record path type }.note (.declared path type)

def write (state : State) (path : Path) (entry : Entry) (propagating : Bool) : State :=
  let written := state.tree.write? path entry propagating
  { state with tree := written.getD state.tree }.note
    (.wrote path entry propagating written.isSome)

def report (state : State) (errors : List ResponseError) : State :=
  { state with tree := state.tree.report errors }

/-- Without a collector the errors are dropped. -/
def reportTo (state : State) (collector : Option ErrorCollector) (errors : List ResponseError) :
    State :=
  match collector with
  | some collector => state.report (errors.map collector.fill)
  | none => state

end State

end GraphQL
