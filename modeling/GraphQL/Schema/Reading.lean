import GraphQL.Schema.Types

/-!
# Written type references

What a type reference says and how it is written: an exclamation mark after a type that is not null,
brackets around the items of a list, and a name. Where one is read, an equals sign before the name
asks for a resolved reference instead of a late one.
-/

namespace GraphQL.TypeRef

def required (name : String) : TypeRef := nonNull (late name)

def isNonNull : TypeRef → Bool
  | nonNull _ => true
  | _ => false

def baseName : TypeRef → String
  | resolved definition => definition.name
  | late name => name
  | list item => item.baseName
  | nonNull inner => inner.baseName

/-- The reference as it is written: brackets around the items of a list, an exclamation mark after
a type that is not null. -/
def text : TypeRef → String
  | resolved definition => definition.name
  | late name => name
  | list item => "[" ++ item.text ++ "]"
  | nonNull inner => inner.text ++ "!"

/-- Reads a reference of at most so many marks and brackets. -/
def readUpTo (definition : String → TypeDef) : Nat → List Char → TypeRef
  | 0, text => late (String.ofList text)
  | depth + 1, text =>
    if text.getLast? = some '!' then nonNull (readUpTo definition depth text.dropLast)
    else match text with
      | '[' :: rest => list (readUpTo definition depth rest.dropLast)
      | '=' :: name => resolved (definition (String.ofList name))
      | name => late (String.ofList name)

/-- Reads a reference; `definition` gives the types that resolved references hold. A text has no
more marks and brackets than characters. -/
def read (definition : String → TypeDef) (text : List Char) : TypeRef :=
  readUpTo definition (text.length + 1) text

end GraphQL.TypeRef
