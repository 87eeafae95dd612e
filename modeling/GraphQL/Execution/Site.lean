import GraphQL.Document.Selection
import GraphQL.Resolver.Arguments
import GraphQL.Resolver.Value
import GraphQL.Schema.Reading

/-!
# Sites

Where the value of a field, or of an element of a list field, is being completed, and what a
settled value means there. A null, an error or a list of errors ends the completion with a null; a
skipped value ends it with nothing written; anything else goes on to be shaped by the declared
type.
-/

namespace GraphQL

/-- The field for which a value is completed. The elements of a list share it. The position is that
of its first node; the selections are those of all its nodes. There is a collector, for the errors
that are reported before the value settles, where the definition of the field asks for one. -/
structure FieldSite where
  parentType : String
  fieldName : String
  position : Option Position := none
  selections : List Selection := []
  collector : Option ErrorCollector := none

def FieldSite.text (field : FieldSite) : String := field.parentType ++ "." ++ field.fieldName

/-- A place of the data whose value is completed, with its declared type. -/
structure Site where
  field : FieldSite
  path : Path
  type : TypeRef

inductive CompletionError where
  | nullNotAllowed
  | listExpected
  | listForLeaf (typeName : String)
  | listForObject
  | unresolvedType (typeName : String)
  | leafRefused (message : String)
  | listForAuthorized (typeName : String)

def CompletionError.message (field : FieldSite) : CompletionError → String
  | nullNotAllowed => "Cannot return null for non-nullable field " ++ field.text ++ "."
  | listExpected => "Expected a list for field " ++ field.text ++ "."
  | listForLeaf typeName => typeName ++ " cannot represent a list value"
  | listForObject => "Expected an object for field " ++ field.text ++ ", got a list."
  | unresolvedType typeName =>
    "Abstract type \"" ++ typeName ++
      "\" must resolve to an Object type at runtime for field \"" ++ field.text ++ "\"."
  | leafRefused message => message
  | listForAuthorized typeName => "Authorization of " ++ typeName ++ " returned a list."

inductive Content where
  | value (value : Json)
  | items (items : List Resolution)

inductive Routed where
  | skipped
  | null (errors : List ResponseError)
  | content (content : Content)

namespace Site

/-- An error as it is reported at a site: there unless it says otherwise. -/
def fill (site : Site) (error : ResponseError) : ResponseError :=
  error.fillPlace site.path site.field.position

def failure (site : Site) (error : CompletionError) : ResponseError :=
  site.fill { message := error.message site.field }

/-- What a settled value means at a site. An empty list of errors is an empty list. -/
def route (site : Site) : FieldValue → Routed
  | .value .null => .null (if site.type.isNonNull then [site.failure .nullNotAllowed] else [])
  | .value value => .content (.value value)
  | .list items => .content (.items items)
  | .error error => .null [site.fill error]
  | .errors [] => .content (.value (.arr []))
  | .errors errors => .null (errors.map site.fill)
  | .skip => .skipped

def item (site : Site) (type : TypeRef) (place : Nat) : Site :=
  { site with path := site.path.index place, type }

end Site

structure ObjectFrame where
  path : Path
  type : TypeDef
  value : Json

end GraphQL
