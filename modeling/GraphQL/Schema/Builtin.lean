import GraphQL.Introspection.Types

/-!
# The standard schema

What every schema starts from: the built-in scalars and directives and the introspection types.
-/

namespace GraphQL

def builtinScalars : List String := ["Int", "Float", "String", "Boolean", "ID"]

/-- The locations of the directives that include and exclude selections. -/
def conditionLocations : List DirectiveLocation := [.field, .fragmentSpread, .inlineFragment]

/-- The argument of the directives that include and exclude selections. -/
def conditionArgument : InputFieldDef := { name := "if", type := .required "Boolean" }

def builtinDirectives : List DirectiveDef :=
  [{ name := "skip"
     description := some
       "Directs the executor to skip this field or fragment when the `if` argument is true."
     arguments := [conditionArgument]
     locations := conditionLocations },
    { name := "include"
      description := some <|
        "Directs the executor to include this field or fragment only when the `if` argument is " ++
          "true."
      arguments := [conditionArgument]
      locations := conditionLocations },
    { name := "deprecated"
      arguments :=
        [{ name := "reason", type := .late "String"
           defaultValue := some (.str "No longer supported") }]
      locations := [.fieldDefinition, .enumValue] }]

/-- The schema with nothing but the built-in scalars and directives and the introspection
types. -/
def Schema.standard : Schema where
  types := builtinScalars.map (fun name =>
      .scalar { name, description := some ("Built-in " ++ name ++ " scalar") }) ++
    Introspection.types
  directives := builtinDirectives

end GraphQL
