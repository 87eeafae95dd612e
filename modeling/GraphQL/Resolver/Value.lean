import GraphQL.Response.Error

/-!
# Field values

What resolvers and authorizers hand back. A value is settled at once or deferred; the elements of
a list may be deferred on their own. A deferred value goes through stages, pauses and reports of
errors, before it settles.
-/

namespace GraphQL

inductive Stage where
  | pause (milliseconds : Nat)
  | report (errors : List ResponseError)

mutual

inductive FieldValue where
  | value (value : Json)
  | list (items : List Resolution)
  | error (error : ResponseError)
  | errors (errors : List ResponseError)
  | skip

inductive Resolution where
  | ready (value : FieldValue)
  | deferred (stages : List Stage) (value : FieldValue)

end

instance : Inhabited FieldValue := ⟨.skip⟩
instance : Inhabited Resolution := ⟨.ready .skip⟩

namespace Resolution

def isReady : Resolution → Bool
  | ready _ => true
  | deferred _ _ => false

def stages : Resolution → List Stage
  | ready _ => []
  | deferred stages _ => stages

def settled : Resolution → FieldValue
  | ready value => value
  | deferred _ value => value

end Resolution

end GraphQL
