import GraphQL.Request.Context
import GraphQL.Document.Selection
import GraphQL.Response.Error

/-!
# What a resolver is given

The arguments of a field, together with the extras that its definition asks for, and the ways in
which a resolver reads them.
-/

namespace GraphQL

inductive ResolverError where
  | fieldNotFound (name : String)
  | missingArgument (name : String)
  /-- An argument does not have the wanted shape. -/
  | argumentMismatch (name : String) (reason : String)
  | custom (message : String)
  | internal (message : String)

namespace ResolverError

def message : ResolverError → String
  | fieldNotFound name => "Field not found: " ++ name
  | missingArgument name => "Missing required argument: " ++ name
  | argumentMismatch name reason => "Failed to parse argument '" ++ name ++ "': " ++ reason
  | custom message => message
  | internal message => "Internal error: " ++ message

def toResponseError (error : ResolverError) : ResponseError := { message := error.message }

end ResolverError

/-- Takes errors for one field while its resolver still returns a value. -/
structure ErrorCollector where
  path : Path
  position : Option Position := none

/-- An error as the collector reports it: at the field unless it says otherwise. -/
def ErrorCollector.fill (collector : ErrorCollector) (error : ResponseError) : ResponseError :=
  error.fillPlace collector.path collector.position

/-- The arguments of a field and the extras it asks for. -/
structure ResolverArgs where
  values : Members Json := []
  /-- The first selection that requested the field. -/
  node : Option FieldNode := none
  collector : Option ErrorCollector := none

namespace ResolverArgs

def ofPairs (pairs : List (String × Json)) : ResolverArgs := { values := Members.ofList pairs }

def get? (args : ResolverArgs) (name : String) : Option Json := Members.get? name args.values

def getAs? (args : ResolverArgs) (name : String) (shape : Shape) : Option Json :=
  (args.get? name).bind (Json.readAs? shape)

/-- An argument as a shape, or why there is none. -/
def require (args : ResolverArgs) (name : String) (shape : Shape) : Except ResolverError Json :=
  match args.get? name with
  | none => .error (.missingArgument name)
  | some value =>
    match value.readAs shape with
    | .ok value => .ok value
    | .error mismatch => .error (.argumentMismatch name mismatch.message)

def isEmpty (args : ResolverArgs) : Bool := args.values.isEmpty

def set (args : ResolverArgs) (name : String) (value : Json) : ResolverArgs :=
  { args with values := Members.set name value args.values }

end ResolverArgs

end GraphQL
