import GraphQL.Json.Basic
import GraphQL.Response.Path

/-!
# Errors and responses

An error that is reported beside the data of a response. Its path, its locations and its
extensions may be left open by whoever raises it; the place where it is reported fills the path
and the location unless they are set. A response is the data of a request and the errors in the
order of their paths.
-/

namespace GraphQL

structure ResponseError where
  message : String
  locations : List Position := []
  path : Option Path := none
  extensions : Option (Members Json) := none

namespace ResponseError

def withPath (error : ResponseError) (path : Path) : ResponseError :=
  { error with path := some path }

def withLocation (error : ResponseError) (position : Position) : ResponseError :=
  { error with locations := error.locations ++ [position] }

def withExtension (error : ResponseError) (name : String) (value : Json) : ResponseError :=
  { error with extensions := some (Members.set name value (error.extensions.getD [])) }

/-- Sets the extension that holds the error code. -/
def withCode (error : ResponseError) (code : String) : ResponseError :=
  error.withExtension "code" (.str code)

def fillPath (error : ResponseError) (path : Path) : ResponseError :=
  { error with path := some (error.path.getD path) }

/-- Adds the location, if it is known, unless there is one. -/
def fillLocation (error : ResponseError) (position : Option Position) : ResponseError :=
  if error.locations.isEmpty then { error with locations := position.toList } else error

/-- Fills the path and the location of the place where the error is reported. -/
def fillPlace (error : ResponseError) (path : Path) (position : Option Position) :
    ResponseError :=
  (error.fillPath path).fillLocation position

end ResponseError

structure Response where
  data : Json
  errors : List ResponseError := []

namespace Response

def hasErrors (response : Response) : Bool := !response.errors.isEmpty

def hasData (response : Response) : Bool := !response.data.isNull

/-- The errors in the order of their paths: errors without a path first, and errors of one path
in the order in which they were reported. -/
def sortErrors (errors : List ResponseError) : List ResponseError :=
  errors.mergeSort fun a b => (compare a.path b.path).isLE

end Response

end GraphQL
