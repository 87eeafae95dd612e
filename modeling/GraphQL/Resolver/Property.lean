import GraphQL.Resolver.Registry
import GraphQL.Text.Letter

/-!
# The property resolver

Resolves a field by the member of its name in the parent object or, failing that, by the member
whose name is the field's in snake case. It is the fallback of a standard registry.
-/

namespace GraphQL

namespace Text

/-- Every upper case letter in lower case, with an underscore before it unless it is the first
character. -/
def snakeChars : List Char → List Char
  | [] => []
  | first :: rest =>
    (if isUpper first then lower first else [first]) ++
      rest.flatMap fun c => if isUpper c then '_' :: lower c else [c]

def snakeCase (name : String) : String := String.ofList (snakeChars name.toList)

end Text

namespace Property

/-- The value of a field by the members of its parent. -/
def read (parent : Json) (fieldName : String) : Except ResolverError Json :=
  match parent with
  | .obj members =>
    .ok (((Members.get? fieldName members).or
      (Members.get? (Text.snakeCase fieldName) members)).getD .null)
  | .null => .ok .null
  | _ => .error (.fieldNotFound fieldName)

def resolver : Resolver where
  resolve parent _ _ info := .ofResult (read parent info.fieldName)
  builtIn := true

end Property

end GraphQL
