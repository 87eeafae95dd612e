import GraphQL.Json.Basic

/-!
# Types and type references

The definitions of a schema's types and the references by which fields and arguments name them. A
reference is either late, a name that is looked up each time it is used, or resolved, in which
case it holds the definition itself; lists and non-null types wrap another reference.

Definitions are stated over the type `ρ` of their references, which ties the knot between the two.
-/

namespace GraphQL

/-- Whether a field or an enum value is deprecated, and why. -/
inductive Deprecation where
  | current
  | deprecated (reason : Option String)

def Deprecation.isDeprecated : Deprecation → Bool
  | current => false
  | deprecated _ => true

def Deprecation.reason? : Deprecation → Option String
  | current => none
  | deprecated reason => reason

structure ScalarDef where
  name : String
  description : Option String := none

structure EnumValueDef where
  name : String
  description : Option String := none
  deprecation : Deprecation := .current

structure EnumDef where
  name : String
  description : Option String := none
  values : List EnumValueDef

/-- True if the name is one of the enum's values. -/
def EnumDef.hasValue (definition : EnumDef) (name : String) : Bool :=
  definition.values.any fun value => value.name = name

structure UnionDef where
  name : String
  description : Option String := none
  members : List String

/-- An argument, or a field of an input object type. -/
structure InputFieldDefOf (ρ : Type) where
  name : String
  description : Option String := none
  type : ρ
  defaultValue : Option Json := none

/-- What a field asks to be given beside its arguments. -/
inductive FieldExtra where
  /-- The selection by which the field was requested. -/
  | node
  /-- A collector for errors of the field. -/
  | errors
  deriving DecidableEq

structure FieldDefOf (ρ : Type) where
  name : String
  description : Option String := none
  type : ρ
  arguments : List (InputFieldDefOf ρ) := []
  deprecation : Deprecation := .current
  extras : List FieldExtra := []

structure ObjectDefOf (ρ : Type) where
  name : String
  description : Option String := none
  fields : List (FieldDefOf ρ) := []
  interfaces : List String := []

structure InterfaceDefOf (ρ : Type) where
  name : String
  description : Option String := none
  fields : List (FieldDefOf ρ) := []
  interfaces : List String := []

structure InputObjectDefOf (ρ : Type) where
  name : String
  description : Option String := none
  fields : List (InputFieldDefOf ρ) := []

inductive TypeDefOf (ρ : Type) where
  | scalar (definition : ScalarDef)
  | object (definition : ObjectDefOf ρ)
  | interface (definition : InterfaceDefOf ρ)
  | union (definition : UnionDef)
  | enum (definition : EnumDef)
  | inputObject (definition : InputObjectDefOf ρ)

inductive TypeRef where
  | resolved (definition : TypeDefOf TypeRef)
  | late (name : String)
  | list (item : TypeRef)
  | nonNull (inner : TypeRef)

abbrev TypeDef := TypeDefOf TypeRef
abbrev ObjectDef := ObjectDefOf TypeRef
abbrev InterfaceDef := InterfaceDefOf TypeRef
abbrev InputObjectDef := InputObjectDefOf TypeRef
abbrev FieldDef := FieldDefOf TypeRef
abbrev InputFieldDef := InputFieldDefOf TypeRef

namespace TypeDefOf

variable {ρ : Type}

def name : TypeDefOf ρ → String
  | scalar definition => definition.name
  | object definition => definition.name
  | interface definition => definition.name
  | union definition => definition.name
  | enum definition => definition.name
  | inputObject definition => definition.name

def description : TypeDefOf ρ → Option String
  | scalar definition => definition.description
  | object definition => definition.description
  | interface definition => definition.description
  | union definition => definition.description
  | enum definition => definition.description
  | inputObject definition => definition.description

/-- The kind of a type, as introspection spells it. -/
def kind : TypeDefOf ρ → String
  | scalar _ => "SCALAR"
  | object _ => "OBJECT"
  | interface _ => "INTERFACE"
  | union _ => "UNION"
  | enum _ => "ENUM"
  | inputObject _ => "INPUT_OBJECT"

def fields? : TypeDefOf ρ → Option (List (FieldDefOf ρ))
  | object definition => some definition.fields
  | interface definition => some definition.fields
  | _ => none

/-- The interfaces that an object or interface type implements. -/
def interfaces? : TypeDefOf ρ → Option (List String)
  | object definition => some definition.interfaces
  | interface definition => some definition.interfaces
  | _ => none

def isAbstract : TypeDefOf ρ → Bool
  | union _ => true
  | interface _ => true
  | _ => false

def isObject : TypeDefOf ρ → Bool
  | object _ => true
  | _ => false

end TypeDefOf

instance {ρ : Type} : Named (InputFieldDefOf ρ) := ⟨InputFieldDefOf.name⟩
instance {ρ : Type} : Named (FieldDefOf ρ) := ⟨FieldDefOf.name⟩
instance {ρ : Type} : Named (TypeDefOf ρ) := ⟨TypeDefOf.name⟩

end GraphQL
