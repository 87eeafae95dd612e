import GraphQL.Schema.Basic

/-!
# Introspection types

The types in which a schema describes itself: ordinary object types whose names begin with two
underscores, and two enums for the kinds of types and the locations of directives.
-/

namespace GraphQL.Introspection

def typeKinds : List String :=
  ["SCALAR", "OBJECT", "INTERFACE", "UNION", "ENUM", "INPUT_OBJECT", "LIST", "NON_NULL"]

/-- A list that is not null, with elements that are not null. -/
def requiredList (name : String) : TypeRef := .nonNull (.list (.required name))

/-- A list that may be null, with elements that are not null. -/
def optionalList (name : String) : TypeRef := .list (.required name)

def optionalText : TypeRef := .late "String"

/-- The argument that admits deprecated items to a list. -/
def includeDeprecated : InputFieldDef :=
  { name := "includeDeprecated", type := .late "Boolean", defaultValue := some (.bool false) }

def schemaType : ObjectDef where
  name := "__Schema"
  fields :=
    [{ name := "description", type := optionalText },
      { name := "types", type := requiredList "__Type" },
      { name := "queryType", type := .required "__Type" },
      { name := "mutationType", type := .late "__Type" },
      { name := "subscriptionType", type := .late "__Type" },
      { name := "directives", type := requiredList "__Directive" }]

def typeType : ObjectDef where
  name := "__Type"
  fields :=
    [{ name := "kind", type := .required "__TypeKind" },
      { name := "name", type := optionalText },
      { name := "description", type := optionalText },
      { name := "specifiedByURL", type := optionalText },
      { name := "fields", type := optionalList "__Field", arguments := [includeDeprecated] },
      { name := "interfaces", type := optionalList "__Type" },
      { name := "possibleTypes", type := optionalList "__Type" },
      { name := "enumValues", type := optionalList "__EnumValue",
        arguments := [includeDeprecated] },
      { name := "inputFields", type := optionalList "__InputValue" },
      { name := "ofType", type := .late "__Type" }]

def fieldType : ObjectDef where
  name := "__Field"
  fields :=
    [{ name := "name", type := .required "String" },
      { name := "description", type := optionalText },
      { name := "args", type := requiredList "__InputValue" },
      { name := "type", type := .required "__Type" },
      { name := "isDeprecated", type := .required "Boolean" },
      { name := "deprecationReason", type := optionalText }]

def inputValueType : ObjectDef where
  name := "__InputValue"
  fields :=
    [{ name := "name", type := .required "String" },
      { name := "description", type := optionalText },
      { name := "type", type := .required "__Type" },
      { name := "defaultValue", type := optionalText }]

def enumValueType : ObjectDef where
  name := "__EnumValue"
  fields :=
    [{ name := "name", type := .required "String" },
      { name := "description", type := optionalText },
      { name := "isDeprecated", type := .required "Boolean" },
      { name := "deprecationReason", type := optionalText }]

def directiveType : ObjectDef where
  name := "__Directive"
  fields :=
    [{ name := "name", type := .required "String" },
      { name := "description", type := optionalText },
      { name := "isRepeatable", type := .required "Boolean" },
      { name := "locations", type := requiredList "__DirectiveLocation" },
      { name := "args", type := requiredList "__InputValue" }]

def enumOf (name : String) (values : List String) : EnumDef :=
  { name, values := values.map fun value => { name := value } }

def types : List TypeDef :=
  [.object schemaType, .object typeType, .object fieldType, .object inputValueType,
    .object enumValueType, .object directiveType, .enum (enumOf "__TypeKind" typeKinds),
    .enum (enumOf "__DirectiveLocation" (DirectiveLocation.all.map DirectiveLocation.text))]

end GraphQL.Introspection
