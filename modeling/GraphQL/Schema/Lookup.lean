import GraphQL.Fault
import GraphQL.Schema.Basic

/-!
# Lookups in a schema

How names become definitions during a request: types as the request sees them, late references,
the possible object types of a type, the object type of a value, and the definition of a selected
field.
-/

namespace GraphQL

/-- The fields that the executor answers by itself: `__schema` and `__type` on the query root, and
`__typename` on any object. -/
inductive MetaField where
  | schema
  | type
  | typename
  deriving DecidableEq

def MetaField.definition : MetaField → FieldDef
  | schema => { name := "__schema", type := .required "__Schema" }
  | type =>
    { name := "__type", type := .late "__Type"
      arguments := [{ name := "name", type := .required "String" }] }
  | typename => { name := "__typename", type := .required "String" }

inductive FieldLookup where
  | ordinary (definition : FieldDef)
  | introspection (field : MetaField)

def FieldLookup.definition : FieldLookup → FieldDef
  | ordinary definition => definition
  | introspection field => field.definition

namespace Schema

def visibleType? (schema : Schema) (context : Context) (name : String) : Option TypeDef :=
  match schema.type? name, schema.visibility with
  | some definition, some visible => if visible definition context then some definition else none
  | found, none => found
  | none, _ => none

theorem type?_of_visible {schema : Schema} {context : Context} {name : String}
    {definition : TypeDef} (h : schema.visibleType? context name = some definition) :
    schema.type? name = some definition := by
  unfold visibleType? at h
  split at h
  · split at h
    · exact (Option.some.inj h) ▸ ‹_›
    · cases h
  · exact h
  · cases h

def rootName? (schema : Schema) : OperationKind → Option String
  | .query => schema.queryType
  | .mutation => schema.mutationType
  | .subscription => schema.subscriptionType

def rootType (schema : Schema) (context : Context) (kind : OperationKind) :
    Except Fault TypeDef :=
  match schema.rootName? kind with
  | none => .error (.missingRootType kind)
  | some name =>
    match schema.visibleType? context name with
    | some definition => .ok definition
    | none => .error (.unknownType name)

def isQueryRoot (schema : Schema) (name : String) : Bool := schema.queryType = some name

/-- Resolves a late reference. Any other reference stays as it is, the late ones inside its
wrappers included. -/
def resolve (schema : Schema) (context : Context) : TypeRef → Except Fault TypeRef
  | .late name =>
    match schema.visibleType? context name with
    | some definition => .ok (.resolved definition)
    | none => .error (.unknownType name)
  | type => .ok type

def implements (definition : TypeDef) (interfaceName : String) : Bool :=
  match definition with
  | .object object => object.interfaces.contains interfaceName
  | _ => false

/-- The object types that a value of the type may have, in the order of a union's members or of
the schema's types. -/
def possibleTypes (schema : Schema) : TypeDef → List TypeDef
  | .object object => (schema.type? object.name).toList
  | .union union => (union.members.filterMap schema.type?).filter TypeDefOf.isObject
  | .interface interface =>
    schema.types.filter fun candidate => implements candidate interface.name
  | _ => []

def isPossibleType (schema : Schema) (type : TypeDef) (name : String) : Bool :=
  match type with
  | .object object => object.name = name
  | .union union => union.members.contains name
  | .interface interface =>
    match schema.type? name with
    | some candidate => implements candidate interface.name
    | none => false
  | _ => false

/-- The name that tells the object type of a value of an abstract type: what the type resolver
picks, or else the value's own `__typename`, or else the only possible type. -/
def concreteName? (schema : Schema) (context : Context) (type : TypeDef) (value : Json) :
    Option String :=
  let picked := (Members.get? type.name schema.typeResolvers).bind fun resolver =>
    resolver value context
  let own := (value.member? "__typename").bind Json.asText?
  let only := match schema.possibleTypes type with
    | [definition] => some definition.name
    | _ => none
  picked.or (own.or only)

/-- The object type of a value of an abstract type. It is visible and possible for the type. -/
def concreteType? (schema : Schema) (context : Context) (type : TypeDef) (value : Json) :
    Option ObjectDef :=
  match schema.concreteName? context type value with
  | none => none
  | some name =>
    match schema.visibleType? context name with
    | some (.object object) => if schema.isPossibleType type name then some object else none
    | _ => none

/-- The definition of a field selected on a type: one of its own fields, an introspection field
of the query root, or the name of the type. -/
def field? (schema : Schema) (owner : TypeDef) (name : String) : Option FieldLookup :=
  match (owner.fields?.getD []).find? fun field => field.name = name with
  | some definition => some (.ordinary definition)
  | none =>
    if schema.isQueryRoot owner.name ∧ name = "__schema" then some (.introspection .schema)
    else if schema.isQueryRoot owner.name ∧ name = "__type" then some (.introspection .type)
    else if name = "__typename" then some (.introspection .typename)
    else none

end Schema

end GraphQL
