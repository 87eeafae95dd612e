import GraphQL.Members

/-!
# JSON values

Values of the JSON data model. An object keeps its members in order. A number is an integer or a
float, and the two are different values even where they denote the same number: `1` is not `1.0`.
Integers stay between the least 64-bit signed and the greatest 64-bit unsigned integer, and
floats are finite; the readers of this library produce no others.
-/

namespace GraphQL

inductive Json where
  | null
  | bool (value : Bool)
  | int (value : Int)
  | float (value : Float)
  | str (value : String)
  | arr (items : List Json)
  | obj (members : List (String × Json))
  deriving Inhabited

namespace Json

def isNull : Json → Bool
  | null => true
  | _ => false

def asBool? : Json → Option Bool
  | bool value => some value
  | _ => none

def asText? : Json → Option String
  | str value => some value
  | _ => none

/-- The member of an object; nothing for any other value. -/
def member? (name : String) : Json → Option Json
  | obj members => Members.get? name members
  | _ => none

def ofText? : Option String → Json
  | some text => str text
  | none => null

mutual

/-- Equality of values. Floats are compared as numbers, members without regard to their
order. -/
def same : Json → Json → Bool
  | null, null => true
  | bool a, bool b => a == b
  | int a, int b => a == b
  | float a, float b => a == b
  | str a, str b => a == b
  | arr a, arr b => sameItems a b
  | obj a, obj b => a.length == b.length && sameMembers a b
  | _, _ => false

/-- The two lists have equal values at equal places. -/
def sameItems : List Json → List Json → Bool
  | [], [] => true
  | a :: as, b :: bs => same a b && sameItems as bs
  | _, _ => false

/-- Every member of the first list is in the second under an equal value. -/
def sameMembers : List (String × Json) → List (String × Json) → Bool
  | [], _ => true
  | (name, a) :: as, bs =>
    (match Members.get? name bs with
      | some b => same a b
      | none => false) && sameMembers as bs

end

end Json

end GraphQL
