import GraphQL.Json.Shape

/-!
# Request context

What a request brings along for the whole of its execution: data of the application and the
values of the variables.
-/

namespace GraphQL

structure Context where
  data : Members Json := []
  /-- The values of the variables that have one. -/
  bindings : Members Json := []

namespace Context

def set (context : Context) (name : String) (value : Json) : Context :=
  { context with data := Members.set name value context.data }

def get? (context : Context) (name : String) : Option Json := Members.get? name context.data

def binding? (context : Context) (name : String) : Option Json :=
  Members.get? name context.bindings

/-- An entry of the application's data as a shape. -/
def getAs? (context : Context) (name : String) (shape : Shape) : Option Json :=
  (context.get? name).bind (Json.readAs? shape)

def bindingAs? (context : Context) (name : String) (shape : Shape) : Option Json :=
  (context.binding? name).bind (Json.readAs? shape)

end Context

end GraphQL
