import GraphQL.Request.Context
import GraphQL.Schema.Reading
import GraphQL.Text.Printable

/-!
# Schemas

A schema names its root types and registers types and directives. Two hooks of the application
belong to it: the type resolvers, which tell the object type of a value of an abstract type, and
the visibility, which decides whether a request may see a type.
-/

namespace GraphQL

inductive DirectiveLocation where
  | query
  | mutation
  | subscription
  | field
  | fragmentDefinition
  | fragmentSpread
  | inlineFragment
  | variableDefinition
  | schema
  | scalar
  | object
  | fieldDefinition
  | argumentDefinition
  | interface
  | union
  | enum
  | enumValue
  | inputObject
  | inputFieldDefinition
  deriving DecidableEq

namespace DirectiveLocation

/-- All locations in the order in which introspection lists them. -/
def all : List DirectiveLocation :=
  [query, mutation, subscription, field, fragmentDefinition, fragmentSpread, inlineFragment,
    variableDefinition, schema, scalar, object, fieldDefinition, argumentDefinition, interface,
    union, enum, enumValue, inputObject, inputFieldDefinition]

def text : DirectiveLocation → String
  | query => "QUERY"
  | mutation => "MUTATION"
  | subscription => "SUBSCRIPTION"
  | field => "FIELD"
  | fragmentDefinition => "FRAGMENT_DEFINITION"
  | fragmentSpread => "FRAGMENT_SPREAD"
  | inlineFragment => "INLINE_FRAGMENT"
  | variableDefinition => "VARIABLE_DEFINITION"
  | schema => "SCHEMA"
  | scalar => "SCALAR"
  | object => "OBJECT"
  | fieldDefinition => "FIELD_DEFINITION"
  | argumentDefinition => "ARGUMENT_DEFINITION"
  | interface => "INTERFACE"
  | union => "UNION"
  | enum => "ENUM"
  | enumValue => "ENUM_VALUE"
  | inputObject => "INPUT_OBJECT"
  | inputFieldDefinition => "INPUT_FIELD_DEFINITION"

end DirectiveLocation

structure DirectiveDef where
  name : String
  description : Option String := none
  arguments : List InputFieldDef := []
  locations : List DirectiveLocation
  repeatable : Bool := false

instance : Named DirectiveDef := ⟨DirectiveDef.name⟩

/-- Picks the name of the object type of a value of an abstract type. -/
abbrev TypeResolver := Json → Context → Option String

/-- Decides whether a type is visible to a request. -/
abbrev Visibility := TypeDef → Context → Bool

structure Schema where
  queryType : Option String := none
  mutationType : Option String := none
  subscriptionType : Option String := none
  types : List TypeDef := []
  directives : List DirectiveDef := []
  typeResolvers : Members TypeResolver := []
  visibility : Option Visibility := none

namespace Schema

/-- Registers a type, in place of the one of its name if there is one. -/
def addType (schema : Schema) (definition : TypeDef) : Schema :=
  { schema with types := Named.put definition schema.types }

/-- Registers a directive, in place of the one of its name if there is one. -/
def addDirective (schema : Schema) (definition : DirectiveDef) : Schema :=
  { schema with directives := Named.put definition schema.directives }

def setTypeResolver (schema : Schema) (name : String) (resolver : TypeResolver) : Schema :=
  { schema with typeResolvers := Members.set name resolver schema.typeResolvers }

/-- The registered type of a name, whether or not it is visible. -/
def type? (schema : Schema) (name : String) : Option TypeDef := Named.find? name schema.types

def directive? (schema : Schema) (name : String) : Option DirectiveDef :=
  Named.find? name schema.directives

/-- A name that may be missing, as a summary shows it. -/
def optionText : Option String → String
  | some name => "Some(" ++ Text.quoted name ++ ")"
  | none => "None"

def summary (schema : Schema) : String :=
  "Schema \x7b query_type: " ++ optionText schema.queryType ++
    ", mutation_type: " ++ optionText schema.mutationType ++
    ", subscription_type: " ++ optionText schema.subscriptionType ++
    ", type_count: " ++ toString schema.types.length ++
    ", directive_count: " ++ toString schema.directives.length ++
    ", type_resolvers: " ++ toString schema.typeResolvers.length ++
    ", has_visibility: " ++ toString schema.visibility.isSome ++ " \x7d"

end Schema

end GraphQL
