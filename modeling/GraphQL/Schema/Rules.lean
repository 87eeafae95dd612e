import GraphQL.Schema.Basic

/-!
# Rules for the hooks of a schema

Type resolvers and visibilities given as data.
-/

namespace GraphQL

inductive TypeRule where
  | property (name : String)
  | has (name : String) (present absent : Option String)
  | contextEntry (name : String)
  | constant (name : Option String)

def TypeRule.resolver : TypeRule → TypeResolver
  | property name, value, _ => (value.member? name).bind Json.asText?
  | has name present absent, value, _ =>
    if (value.member? name).isSome then present else absent
  | contextEntry name, _, context => (context.get? name).bind Json.asText?
  | constant name, _, _ => name

/-- Hides types by name, unless an entry of the application's data is true. -/
structure VisibilityRule where
  hidden : List String
  revealedBy : Option String := none

def VisibilityRule.visibility (rule : VisibilityRule) : Visibility := fun definition context =>
  !rule.hidden.contains definition.name ||
    ((rule.revealedBy.bind context.get?).bind Json.asBool?).getD false

end GraphQL
