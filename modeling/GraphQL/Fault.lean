import GraphQL.Document.Basic

/-!
# Faults

What makes it impossible to answer a request at all. A failure at a field is not a fault: it is
reported in the response, beside the data.
-/

namespace GraphQL

inductive Fault where
  | noOperation
  | unknownOperation (name : String)
  /-- No operation was named, and the document has several. -/
  | ambiguousOperation
  | missingRootType (kind : OperationKind)
  | unknownType (name : String)
  | unknownField (typeName fieldName : String)
  | unknownFragment (name : String)
  /-- A field was declared with an input object type. -/
  | inputTypeAsOutput (typeName : String)
  deriving DecidableEq

namespace Fault

def message : Fault → String
  | noOperation => "document contains no operations"
  | unknownOperation name => "unknown operation `" ++ name ++ "`"
  | ambiguousOperation =>
    "an operation name is required when the document contains multiple operations"
  | missingRootType kind => "schema does not define a root type for " ++ kind.text ++ " operations"
  | unknownType name => "unknown type `" ++ name ++ "`"
  | unknownField typeName fieldName =>
    "type `" ++ typeName ++ "` has no field `" ++ fieldName ++ "`"
  | unknownFragment name => "unknown fragment `" ++ name ++ "`"
  | inputTypeAsOutput typeName =>
    "cannot complete a value of input object type `" ++ typeName ++ "`"

/-- True of the faults that a document valid for its schema does not have. -/
def isInternal : Fault → Bool
  | unknownType _ => true
  | unknownField _ _ => true
  | unknownFragment _ => true
  | inputTypeAsOutput _ => true
  | _ => false

end Fault

namespace Document

/-- The operation to execute: the first one of the given name or, if no name is given, the only
one. -/
def operation? (document : Document) (name : Option String) : Except Fault Operation :=
  match name with
  | some name =>
    match document.operations.find? fun operation => operation.name = some name with
    | some operation => .ok operation
    | none => .error (.unknownOperation name)
  | none =>
    match document.operations with
    | [] => .error .noOperation
    | [operation] => .ok operation
    | _ => .error .ambiguousOperation

end Document

end GraphQL
