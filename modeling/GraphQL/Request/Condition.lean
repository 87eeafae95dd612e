import GraphQL.Document.Selection
import GraphQL.Request.Arguments
import GraphQL.Schema.Basic

/-!
# Conditions

Whether a selection takes part: a `@skip` whose condition is true excludes it, and so does an
`@include` whose condition is false. A condition that is neither true nor false excludes nothing,
and other directives have no say.
-/

namespace GraphQL

namespace Directive

/-- The condition on which a directive excludes its selection, for the directives that do. -/
def excludesWhen? (directive : Directive) : Option Bool :=
  if directive.name = "skip" then some true
  else if directive.name = "include" then some false
  else none

def condition? (schema : Schema) (bindings : Members Json) (directive : Directive) :
    Option Bool :=
  let definitions := match schema.directive? directive.name with
    | some definition => definition.arguments
    | none => []
  let arguments := Arguments.build definitions directive.arguments bindings
  (Members.get? "if" arguments).bind Json.asBool?

/-- True unless the directive excludes its selection. -/
def admits (schema : Schema) (bindings : Members Json) (directive : Directive) : Bool :=
  match directive.excludesWhen? with
  | some excluding => directive.condition? schema bindings != some excluding
  | none => true

end Directive

def shouldInclude (schema : Schema) (bindings : Members Json) (directives : List Directive) :
    Bool :=
  directives.all (Directive.admits schema bindings)

end GraphQL
