/-!
# Members

Lists of named values in the order in which the names first appeared. Setting a name that is
present keeps its place and replaces its value. The members of a JSON object, the arguments of a
field and the variables of a request are of this kind.

Definitions that carry their own name (types, fields, directives) are kept in plain lists under
the same rule.
-/

namespace GraphQL

abbrev Members (α : Type) := List (String × α)

namespace Members

variable {α : Type}

def get? (name : String) : Members α → Option α
  | [] => none
  | (key, value) :: rest => if key = name then some value else get? name rest

def contains (name : String) (members : Members α) : Bool := (get? name members).isSome

/-- Sets a name: in place if it is present, at the end otherwise. -/
def set (name : String) (value : α) : Members α → Members α
  | [] => [(name, value)]
  | (key, old) :: rest =>
    if key = name then (key, value) :: rest else (key, old) :: set name value rest

/-- Changes the value under a name by a function that may refuse; nothing if the name is absent
or the function refuses. -/
def update? (name : String) (change : α → Option α) : Members α → Option (Members α)
  | [] => none
  | (key, value) :: rest =>
    if key = name then (change value).map fun value => (key, value) :: rest
    else (update? name change rest).map ((key, value) :: ·)

def names (members : Members α) : List String := members.map Prod.fst

/-- The members set one after another from a list of pairs. -/
def ofList (pairs : List (String × α)) : Members α :=
  pairs.foldl (fun members pair => set pair.1 pair.2 members) []

end Members

/-- Things that carry their own name. -/
class Named (α : Type) where
  name : α → String

namespace Named

variable {α : Type} [Named α]

def find? (name : String) (items : List α) : Option α :=
  List.find? (fun item => Named.name item = name) items

/-- Adds an item: in place of the one of its name if there is one, at the end otherwise. -/
def put (item : α) : List α → List α
  | [] => [item]
  | old :: rest =>
    if Named.name old = Named.name item then item :: rest else old :: put item rest

def ofList (items : List α) : List α := items.foldl (fun kept item => put item kept) []

end Named

end GraphQL
