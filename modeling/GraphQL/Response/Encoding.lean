import GraphQL.Json.Reading
import GraphQL.Response.Error

/-!
# The JSON form of responses

A response and its errors as JSON values, and back. What is empty or unset is left out: an error
without locations has no member `locations`, one without a path no member `path`, and a response
without errors no member `errors`. An empty path or an empty list of extensions is set, and is
written.

The readers take an object, whose other members are ignored, or a list of the members' values in
their order.
-/

namespace GraphQL

namespace Json

/-- The integer of a value that fits into 64 bits without a sign. -/
def asSize? : Json → Option Nat
  | int i => if 0 ≤ i && i ≤ maxUInt64 then some i.toNat else none
  | _ => none

/-- The integer of a value that fits into 32 bits without a sign. -/
def asUInt32? : Json → Option UInt32
  | int i => if 0 ≤ i && i ≤ 4294967295 then some (UInt32.ofNat i.toNat) else none
  | _ => none

/-- The list that the value is, read element by element. -/
def asList? {α : Type} (read : Json → Option α) : Json → Option (List α)
  | arr items => items.mapM read
  | _ => none

/-- Nothing for null, and what the reader makes of any other value. -/
def asNullable? {α : Type} (read : Json → Option α) : Json → Option (Option α)
  | null => some none
  | value => (read value).map some

def asMembers? : Json → Option (Members Json)
  | obj members => some members
  | _ => none

end Json

namespace Position

def toJson (position : Position) : Json :=
  .obj [("line", .int position.line.toNat), ("column", .int position.column.toNat)]

/-- Reads an object with line and column, or a list of the two. -/
def ofJson? : Json → Option Position
  | .obj members => do
    let line ← Members.get? "line" members
    let column ← Members.get? "column" members
    return ⟨← line.asUInt32?, ← column.asUInt32?⟩
  | .arr [line, column] => do return ⟨← line.asUInt32?, ← column.asUInt32?⟩
  | _ => none

end Position

namespace PathSegment

def toJson : PathSegment → Json
  | key name => .str name
  | index place => .int place

/-- Reads a string as a key and a number as an index. -/
def ofJson? : Json → Option PathSegment
  | .str name => some (key name)
  | value => value.asSize?.map index

end PathSegment

namespace Path

def toJson (path : Path) : Json := .arr (path.map PathSegment.toJson)

def ofJson? : Json → Option Path := Json.asList? PathSegment.ofJson?

end Path

namespace ResponseError

/-- An object with the message and whatever else is set. -/
def toJson (error : ResponseError) : Json :=
  .obj (("message", .str error.message) ::
    ((if error.locations.isEmpty then []
      else [("locations", Json.arr (error.locations.map Position.toJson))]) ++
    (error.path.map fun path => ("path", path.toJson)).toList ++
    (error.extensions.map fun members => ("extensions", Json.obj members)).toList))

/-- Reads an object or a list of four. The message must be there, the locations may be missing
but not null, the path and the extensions may be both. -/
def ofJson? : Json → Option ResponseError
  | .obj members => do
    let message ← Members.get? "message" members
    let optional {α : Type} (name : String) (read : Json → Option α) : Option (Option α) :=
      match Members.get? name members with
      | some value => value.asNullable? read
      | none => some none
    return {
      message := ← message.asText?
      locations := ← match Members.get? "locations" members with
        | some value => value.asList? Position.ofJson?
        | none => some []
      path := ← optional "path" Path.ofJson?
      extensions := ← optional "extensions" Json.asMembers? }
  | .arr [message, locations, path, extensions] => do
    return {
      message := ← message.asText?
      locations := ← locations.asList? Position.ofJson?
      path := ← path.asNullable? Path.ofJson?
      extensions := ← extensions.asNullable? Json.asMembers? }
  | _ => none

end ResponseError

namespace Response

/-- An object with the data and, if there are any, the errors. -/
def toJson (response : Response) : Json :=
  .obj (("data", response.data) ::
    (if response.errors.isEmpty then []
      else [("errors", Json.arr (response.errors.map ResponseError.toJson))]))

/-- Reads an object or a list. The data must be there, the errors may be missing. -/
def ofJson? : Json → Option Response
  | .obj members => do
    let data ← Members.get? "data" members
    let errors ← match Members.get? "errors" members with
      | some value => value.asList? ResponseError.ofJson?
      | none => some []
    return { data, errors }
  | .arr [data] => some { data }
  | .arr [data, errors] => do return { data, errors := ← errors.asList? ResponseError.ofJson? }
  | _ => none

end Response

end GraphQL
