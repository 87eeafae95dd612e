import GraphQL.Response.Path

/-!
# Selections

What a request selects on an object: fields with their own selections, fragments written in place,
and fragments referred to by name. Arguments are written down as literals and as references to
variables at any depth.
-/

namespace GraphQL

inductive InputValue where
  | null
  | int (value : Int)
  | float (value : Float)
  | str (value : String)
  | bool (value : Bool)
  | enum (name : String)
  | variable (name : String)
  | list (items : List InputValue)
  | object (entries : List (String × InputValue))
  deriving Inhabited

structure Directive where
  name : String
  arguments : List (String × InputValue) := []

/-- A selected field whose sub-selections have type `σ`. -/
structure FieldNodeOf (σ : Type) where
  aliasName : Option String := none
  name : String
  arguments : List (String × InputValue) := []
  directives : List Directive := []
  selections : List σ := []
  position : Option Position := none

inductive Selection where
  | field (node : FieldNodeOf Selection)
  | inline (condition : Option String) (directives : List Directive) (selections : List Selection)
  | spread (name : String) (directives : List Directive)

abbrev FieldNode := FieldNodeOf Selection

/-- The key under which the field appears in the response: its alias, or else its name. -/
def FieldNodeOf.responseKey {σ : Type} (node : FieldNodeOf σ) : String :=
  node.aliasName.getD node.name

namespace Selection

mutual

/-- The number of selections in a selection, those inside inline fragments included. The
sub-selections of a field belong to another object and do not count. -/
def weight : Selection → Nat
  | field _ => 1
  | inline _ _ selections => 1 + weights selections
  | spread _ _ => 1

/-- The number of selections in a list of selections. -/
def weights : List Selection → Nat
  | [] => 0
  | selection :: rest => weight selection + weights rest

end

theorem weight_pos (selection : Selection) : 0 < selection.weight := by
  cases selection with
  | field _ => exact Nat.zero_lt_one
  | inline _ _ selections => exact Nat.lt_add_right (weights selections) Nat.zero_lt_one
  | spread _ _ => exact Nat.zero_lt_one

theorem weights_append (xs ys : List Selection) :
    weights (xs ++ ys) = weights xs + weights ys := by
  induction xs with
  | nil => simp [weights]
  | cons x xs ih => simp [weights, ih, Nat.add_assoc]

end Selection

end GraphQL
