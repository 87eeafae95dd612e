import GraphQL.Response.Error
import GraphQL.Schema.Reading

/-!
# The result tree

The data of a response while it is being made. Values are written by path as they settle, in
whatever order that is. An object or a list is written before what it holds, with every place
still pending, and a write lands only on a pending place whose containers are all there: what is
written below a collapsed value is dropped.

A value that may not be null and is null collapses what holds it: the nearest container whose
declared type admits null becomes null, and the whole data if there is none.
-/

namespace GraphQL

inductive Slot where
  | pending
  | null
  | leaf (value : Json)
  | object (members : List (String × Slot))
  | list (items : List Slot)
  deriving Inhabited

inductive Entry where
  | null
  | leaf (value : Json)
  /-- An object with its response keys in order. -/
  | object (keys : List String)
  | list (length : Nat)

/-- The state of a place after an entry is written; the places it opens are pending. -/
def Entry.slot : Entry → Slot
  | null => .null
  | leaf value => .leaf value
  | object keys => .object (Members.ofList (keys.map fun key => (key, .pending)))
  | list length => .list (List.replicate length .pending)

namespace Slot

def isPending : Slot → Bool
  | pending => true
  | _ => false

def isNull : Slot → Bool
  | null => true
  | _ => false

/-- The place at a path, if all containers on the way are there. -/
def at? : Path → Slot → Option Slot
  | [], slot => some slot
  | .key name :: path, object members => (Members.get? name members).bind (at? path)
  | .index place :: path, list items => items[place]?.bind (at? path)
  | _ :: _, _ => none

/-- Changes an item of a list by a function that may refuse. -/
def updateItem? (change : Slot → Option Slot) : Nat → List Slot → Option (List Slot)
  | _, [] => none
  | 0, item :: rest => (change item).map (· :: rest)
  | place + 1, item :: rest => (updateItem? change place rest).map (item :: ·)

/-- Changes the place at a path by a function that may refuse; nothing if a container on the way
is not there or the function refuses. -/
def update? (change : Slot → Option Slot) : Path → Slot → Option Slot
  | [], slot => change slot
  | .key name :: path, object members =>
    (Members.update? name (update? change path) members).map object
  | .index place :: path, list items => (updateItem? (update? change path) place items).map list
  | _ :: _, _ => none

mutual

/-- The data as they stand. A place that is pending is null, except that an object leaves out the
members that are pending. -/
def render : Slot → Json
  | pending => .null
  | null => .null
  | leaf value => value
  | object members => .obj (renderMembers members)
  | list items => .arr (renderItems items)

/-- The members of an object that are not pending. -/
def renderMembers : List (String × Slot) → List (String × Json)
  | [] => []
  | (name, slot) :: rest =>
    if slot.isPending then renderMembers rest else (name, render slot) :: renderMembers rest

def renderItems : List Slot → List Json
  | [] => []
  | slot :: rest => render slot :: renderItems rest

end

end Slot

/-- The data of a response, the declared types of its places, the latest first, and the errors in the
order in which they were reported. -/
structure ResultTree where
  data : Slot := .pending
  types : List (Path × TypeRef) := []
  errors : List ResponseError := []

namespace ResultTree

def record (tree : ResultTree) (path : Path) (type : TypeRef) : ResultTree :=
  { tree with types := (path, type) :: tree.types }

def declaredType? (tree : ResultTree) (path : Path) : Option TypeRef :=
  (tree.types.find? fun entry => entry.1 = path).map Prod.snd

def report (tree : ResultTree) (errors : List ResponseError) : ResultTree :=
  { tree with errors := tree.errors ++ errors }

def isRequired (tree : ResultTree) (path : Path) : Bool :=
  match tree.declaredType? path with
  | some type => type.isNonNull
  | none => false

/-- The containers of the value at a path, the nearest first and the root last. -/
def containers (path : Path) : List Path :=
  (List.range path.length).reverse.map path.take

/-- The container that becomes null when the value at a path must not be null and is: the nearest
one that was not declared to be not null, or the root. -/
def collapsePoint (tree : ResultTree) (path : Path) : Path :=
  ((containers path).find? fun container => container.isEmpty || !tree.isRequired container).getD []

/-- Writes an entry at a pending place. A write anywhere else is dropped. -/
def place? (tree : ResultTree) (path : Path) (entry : Entry) : Option ResultTree :=
  (tree.data.update? (fun slot => if slot.isPending then some entry.slot else none) path).map
    fun data => { tree with data }

/-- Collapses what holds the value at a path. The root always collapses; any other container
does unless it is null or is not there. -/
def collapse? (tree : ResultTree) (path : Path) : Option ResultTree :=
  match tree.collapsePoint path with
  | [] => some { tree with data := .null }
  | point =>
    (tree.data.update? (fun slot => if slot.isNull then none else some .null) point).map
      fun data => { tree with data }

/-- Writes an entry at a path or, if it is propagating, collapses what holds the value there.
Nothing if the write did not land. -/
def write? (tree : ResultTree) (path : Path) (entry : Entry) (propagating : Bool) :
    Option ResultTree :=
  if propagating then tree.collapse? path else tree.place? path entry

def write (tree : ResultTree) (path : Path) (entry : Entry) (propagating : Bool) : ResultTree :=
  (tree.write? path entry propagating).getD tree

/-- True if a value at the path can still appear in the data. -/
def isLive (tree : ResultTree) (path : Path) : Bool :=
  match tree.data.at? path with
  | some slot => !slot.isNull
  | none => false

def response (tree : ResultTree) : Response where
  data := tree.data.render
  errors := Response.sortErrors tree.errors

end ResultTree

end GraphQL
