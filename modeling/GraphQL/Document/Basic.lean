import GraphQL.Document.Selection
import GraphQL.Members

/-!
# Documents

The operations of a request and the fragments that they share.
-/

namespace GraphQL

inductive OperationKind where
  | query
  | mutation
  | subscription
  deriving DecidableEq

def OperationKind.text : OperationKind → String
  | query => "query"
  | mutation => "mutation"
  | subscription => "subscription"

structure VariableDef where
  name : String
  defaultValue : Option InputValue := none

structure Operation where
  kind : OperationKind := .query
  name : Option String := none
  variableDefs : List VariableDef := []
  selections : List Selection

/-- A fragment that selections refer to by name. It applies to the types that its condition
admits. -/
structure FragmentDef where
  name : String
  condition : String
  selections : List Selection

instance : Named FragmentDef := ⟨FragmentDef.name⟩

structure Document where
  operations : List Operation := []
  fragments : List FragmentDef := []

def Document.fragment? (document : Document) (name : String) : Option FragmentDef :=
  Named.find? name document.fragments

end GraphQL
