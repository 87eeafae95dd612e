import GraphQL.Document.Selection
import GraphQL.Members
import GraphQL.Schema.Reading

/-!
# Arguments

The values of arguments: what the request writes down, with the values of its variables put in,
and the declared defaults for what it leaves out.

A variable without a value counts as left out: the argument or the entry of an object that stands
for it is missing, and the element of a list that stands for it is null.
-/

namespace GraphQL

namespace InputValue

/-- The JSON value of a float; a float that is not finite has none and becomes null. -/
def floatValue (x : Float) : Json := if x.isFinite then .float x else .null

mutual

/-- The value of an input value; nothing for a variable without a value. -/
def value? (bindings : Members Json) : InputValue → Option Json
  | null => some .null
  | int i => some (.int i)
  | float x => some (floatValue x)
  | str text => some (.str text)
  | bool b => some (.bool b)
  | enum name => some (.str name)
  | «variable» name => Members.get? name bindings
  | list items => some (.arr (itemValues bindings items))
  | object entries => some (.obj (Members.ofList (entryValues bindings entries)))

def itemValues (bindings : Members Json) : List InputValue → List Json
  | [] => []
  | item :: rest => (value? bindings item).getD .null :: itemValues bindings rest

/-- The values of named entries, without those that have none. -/
def entryValues (bindings : Members Json) :
    List (String × InputValue) → List (String × Json)
  | [] => []
  | (name, entry) :: rest =>
    match value? bindings entry with
    | some value => (name, value) :: entryValues bindings rest
    | none => entryValues bindings rest

end

end InputValue

namespace Arguments

/-- The arguments with the declared defaults of those that are missing. -/
def withDefaults (definitions : List InputFieldDef) (arguments : Members Json) :
    Members Json :=
  definitions.foldl (fun arguments definition =>
    match definition.defaultValue with
    | some value =>
      if Members.contains definition.name arguments then arguments
      else Members.set definition.name value arguments
    | none => arguments) arguments

/-- The arguments of a selection against their definitions. -/
def build (definitions : List InputFieldDef) (supplied : List (String × InputValue))
    (bindings : Members Json) : Members Json :=
  withDefaults definitions (Members.ofList (InputValue.entryValues bindings supplied))

end Arguments

end GraphQL
