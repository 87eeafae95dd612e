import GraphQL.Json.Text
import GraphQL.Schema.Lookup

/-!
# Descriptions of a schema

The JSON values that stand for schemas, types, fields, arguments and directives in introspection.
A description of a named type holds its kind, name and description only; what else there is to
know about it is looked up when it is selected. A default value is described as a request would
write it: the names of an object's entries without quotes, and a blank after every comma and colon.
-/

namespace GraphQL.Introspection

mutual

def literalChars : Json → List Char
  | .arr items => '[' :: literalItems items ++ [']']
  | .obj members => '\x7b' :: literalEntries members ++ ['\x7d']
  | value => value.chars

def literalItems : List Json → List Char
  | [] => []
  | [item] => literalChars item
  | item :: items => literalChars item ++ ',' :: ' ' :: literalItems items

def literalEntries : List (String × Json) → List Char
  | [] => []
  | [(name, value)] => name.toList ++ ':' :: ' ' :: literalChars value
  | (name, value) :: entries =>
    name.toList ++ ':' :: ' ' :: literalChars value ++ ',' :: ' ' :: literalEntries entries

end

def literal (value : Json) : String := String.ofList (literalChars value)

/-- The description of a type as introspection gives it. -/
def typeObject (kind name description ofType : Json) : Json :=
  .obj [("kind", kind), ("name", name), ("description", description), ("ofType", ofType)]

def describeType (type : TypeDef) : Json :=
  typeObject (.str type.kind) (.str type.name) (.ofText? type.description) .null

/-- The description of a reference. A late reference is looked up whether or not the type is
visible; one to an unregistered type has no kind. -/
def describeRef (schema : Schema) : TypeRef → Json
  | .resolved type => describeType type
  | .late name =>
    match schema.type? name with
    | some type => describeType type
    | none => typeObject .null (.str name) .null .null
  | .list item => typeObject (.str "LIST") .null .null (describeRef schema item)
  | .nonNull inner => typeObject (.str "NON_NULL") .null .null (describeRef schema inner)

/-- The description of an argument or an input field. -/
def describeInput (schema : Schema) (input : InputFieldDef) : Json :=
  .obj [("name", .str input.name), ("description", .ofText? input.description),
    ("type", describeRef schema input.type),
    ("defaultValue", .ofText? (input.defaultValue.map literal))]

def describeField (schema : Schema) (field : FieldDef) : Json :=
  .obj [("name", .str field.name), ("description", .ofText? field.description),
    ("args", .arr (field.arguments.map (describeInput schema))),
    ("type", describeRef schema field.type),
    ("isDeprecated", .bool field.deprecation.isDeprecated),
    ("deprecationReason", .ofText? field.deprecation.reason?)]

def describeEnumValue (value : EnumValueDef) : Json :=
  .obj [("name", .str value.name), ("description", .ofText? value.description),
    ("isDeprecated", .bool value.deprecation.isDeprecated),
    ("deprecationReason", .ofText? value.deprecation.reason?)]

def describeDirective (schema : Schema) (directive : DirectiveDef) : Json :=
  .obj [("name", .str directive.name), ("description", .ofText? directive.description),
    ("isRepeatable", .bool directive.repeatable),
    ("locations", .arr (directive.locations.map fun location => .str location.text)),
    ("args", .arr (directive.arguments.map (describeInput schema)))]

/-- The description of the visible type of a name; null if there is none. -/
def describeNamed (schema : Schema) (context : Context) (name : Option String) : Json :=
  match name.bind (schema.visibleType? context) with
  | some type => describeType type
  | none => .null

/-- The description of a schema, with the types that the request sees. -/
def describeSchema (schema : Schema) (context : Context) : Json :=
  .obj [("description", .null),
    ("types", .arr ((schema.types.filterMap fun type =>
      schema.visibleType? context type.name).map describeType)),
    ("queryType", describeNamed schema context schema.queryType),
    ("mutationType", describeNamed schema context schema.mutationType),
    ("subscriptionType", describeNamed schema context schema.subscriptionType),
    ("directives", .arr (schema.directives.map (describeDirective schema)))]

/-- The descriptions of the fields of a type; without the deprecated ones unless they are
admitted. Nothing for a type that has no fields. -/
def describeFields (schema : Schema) (deprecatedToo : Bool) (type : TypeDef) :
    Option (List Json) :=
  type.fields?.map fun fields =>
    (fields.filter fun field => deprecatedToo || !field.deprecation.isDeprecated).map
      (describeField schema)

/-- The descriptions of the visible interfaces of a type. -/
def describeInterfaces (schema : Schema) (context : Context) (type : TypeDef) :
    Option (List Json) :=
  type.interfaces?.map fun names =>
    (names.filterMap (schema.visibleType? context)).map describeType

/-- The descriptions of the visible possible types of an abstract type. -/
def describePossibleTypes (schema : Schema) (context : Context) (type : TypeDef) :
    Option (List Json) :=
  if type.isAbstract then
    some (((schema.possibleTypes type).filter fun candidate =>
      (schema.visibleType? context candidate.name).isSome).map describeType)
  else none

/-- The descriptions of the values of an enum; without the deprecated ones unless they are
admitted. -/
def describeEnumValues (deprecatedToo : Bool) : TypeDef → Option (List Json)
  | .enum definition =>
    some ((definition.values.filter fun value =>
      deprecatedToo || !value.deprecation.isDeprecated).map describeEnumValue)
  | _ => none

/-- The descriptions of the fields of an input object type. -/
def describeInputFields (schema : Schema) : TypeDef → Option (List Json)
  | .inputObject definition => some (definition.fields.map (describeInput schema))
  | _ => none

end GraphQL.Introspection
