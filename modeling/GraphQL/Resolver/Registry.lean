import GraphQL.Leaf.Rules
import GraphQL.Resolver.Arguments
import GraphQL.Resolver.Value
import GraphQL.Schema.Basic

/-!
# The registry of resolvers

The code of an application by which its fields are resolved: resolvers of fields, a fallback for
the fields without one, authorizers of object types and coercers of scalars. All of them are pure;
what they do over time is part of the value they return.
-/

namespace GraphQL

structure ResolverInfo where
  fieldName : String
  parentType : String
  /-- The declared type as it is written. -/
  returnType : String := ""
  path : Path := []
  schema : Option Schema := none

/-- What a resolver hands back: errors reported at once, and the value. -/
structure Reply where
  reports : List ResponseError := []
  resolution : Resolution

namespace Reply

def ready (value : FieldValue) : Reply := { resolution := .ready value }

def ofResult : Except ResolverError Json → Reply
  | .ok value => ready (.value value)
  | .error error => ready (.error error.toResponseError)

end Reply

structure Resolver where
  resolve : (parent : Json) → ResolverArgs → Context → ResolverInfo → Reply
  /-- The resolver belongs to this library and not to the application. -/
  builtIn : Bool := false

/-- Decides whether and as what an object is exposed. -/
abbrev Authorizer := ObjectDef → Json → Context → Resolution

inductive ResolverSource where
  | registered
  | fallback
  deriving DecidableEq

/-- The resolvers, authorizers and coercers of an application. -/
structure Registry where
  /-- Resolvers under type and field name, joined by a point. -/
  resolvers : Members Resolver := []
  fallback : Option Resolver := none
  authorizers : Members Authorizer := []
  scalars : Members ScalarCoercer := []

namespace Registry

/-- The key of a field. Types and fields whose joined names agree share a key. -/
def fieldKey (typeName fieldName : String) : String := typeName ++ "." ++ fieldName

def register (registry : Registry) (typeName fieldName : String) (resolver : Resolver) :
    Registry :=
  { registry with
    resolvers := Members.set (fieldKey typeName fieldName) resolver registry.resolvers }

def setFallback (registry : Registry) (resolver : Option Resolver) : Registry :=
  { registry with fallback := resolver }

def setAuthorizer (registry : Registry) (typeName : String) (authorizer : Authorizer) :
    Registry :=
  { registry with authorizers := Members.set typeName authorizer registry.authorizers }

def setScalar (registry : Registry) (name : String) (coercer : ScalarCoercer) : Registry :=
  { registry with scalars := Members.set name coercer registry.scalars }

/-- The resolver of a field and where it was found. -/
def resolver? (registry : Registry) (typeName fieldName : String) :
    Option (Resolver × ResolverSource) :=
  match Members.get? (fieldKey typeName fieldName) registry.resolvers with
  | some resolver => some (resolver, .registered)
  | none => registry.fallback.map fun resolver => (resolver, .fallback)

def authorizer? (registry : Registry) (typeName : String) : Option Authorizer :=
  Members.get? typeName registry.authorizers

/-- The value as which an object is exposed; without an authorizer, its own value. -/
def authorize (registry : Registry) (type : ObjectDef) (value : Json) (context : Context) :
    Resolution :=
  match registry.authorizer? type.name with
  | some authorizer => authorizer type value context
  | none => .ready (.value value)

def summary (registry : Registry) : String :=
  "ResolverMap \x7b resolver_count: " ++ toString registry.resolvers.length ++
    ", has_default: " ++ toString registry.fallback.isSome ++
    ", authorizer_count: " ++ toString registry.authorizers.length ++
    ", scalar_count: " ++ toString registry.scalars.length ++ " \x7d"

end Registry

end GraphQL
