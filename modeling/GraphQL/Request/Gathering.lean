import GraphQL.Request.Condition
import GraphQL.Schema.Lookup

/-!
# Gathered fields

The selections of an object against its runtime type, flattened into response keys in the order
of their first occurrence, each with all field nodes that share it. A fragment takes part if its
condition admits the runtime type, and a named fragment is followed once.

Selections are taken from a list of work; a fragment that takes part puts its own selections in
front of those that are left. Each step either follows a fragment that has not been followed or
leaves fewer selections behind, so the gathering ends even where fragments refer to each other in
a circle.
-/

namespace GraphQL

/-- The field nodes of one response key, in the order of their occurrence. -/
structure FieldGroup where
  key : String
  /-- The first node, which gives the field its name and arguments. -/
  node : FieldNode
  others : List FieldNode := []

namespace FieldGroup

def nodes (group : FieldGroup) : List FieldNode := group.node :: group.others

def selections (group : FieldGroup) : List Selection :=
  group.nodes.flatMap FieldNodeOf.selections

/-- Adds a node to the group of its response key, which is opened at the end if there is none. -/
def add (node : FieldNode) : List FieldGroup → List FieldGroup
  | [] => [{ key := node.responseKey, node }]
  | group :: rest =>
    if group.key = node.responseKey then
      { group with others := group.others ++ [node] } :: rest
    else group :: add node rest

end FieldGroup

namespace Gathering

variable (schema : Schema) (document : Document) (context : Context)

/-- True if a fragment on a condition applies to a runtime type. The condition must be visible. -/
def applies (condition : String) (runtimeType : TypeDef) : Except Fault Bool :=
  match schema.visibleType? context condition with
  | some definition => .ok (schema.isPossibleType definition runtimeType.name)
  | none => .error (.unknownType condition)

/-- True if a fragment applies that need not have a condition. -/
def appliesIfAny (condition : Option String) (runtimeType : TypeDef) : Except Fault Bool :=
  match condition with
  | some condition => applies schema context condition runtimeType
  | none => .ok true

/-- The fragments that have not been followed. -/
def unvisited (visited : List String) : List FragmentDef :=
  document.fragments.filter fun fragment => !visited.contains fragment.name

theorem unvisited_length_lt {visited : List String} {name : String} {fragment : FragmentDef}
    (found : document.fragment? name = some fragment) (fresh : visited.contains name = false) :
    (unvisited document (name :: visited)).length < (unvisited document visited).length := by
  have named : fragment.name = name := by
    have := List.find?_some found
    simpa [Named.name] using this
  have member : fragment ∈ document.fragments := List.mem_of_find?_eq_some found
  have split : unvisited document (name :: visited) =
      (unvisited document visited).filter fun fragment => fragment.name != name := by
    simp only [unvisited, List.filter_filter]
    apply List.filter_congr
    intro other _
    by_cases same : other.name = name <;> simp [same]
  rw [split]
  apply List.length_filter_lt_length_iff_exists.mpr
  refine ⟨fragment, ?_, by simp [named]⟩
  simp only [unvisited, List.mem_filter]
  exact ⟨member, by simpa [named] using fresh⟩

/-- Replacing the first selection of the work by lighter ones makes the work lighter. -/
theorem weights_append_lt {front : List Selection} {selection : Selection}
    (rest : List Selection) (lighter : Selection.weights front < selection.weight) :
    Selection.weights (front ++ rest) < Selection.weights (selection :: rest) := by
  rw [Selection.weights_append, Selection.weights]
  omega

/-- Dropping the first selection makes the work lighter. -/
theorem weights_lt_cons (selection : Selection) (rest : List Selection) :
    Selection.weights rest < Selection.weights (selection :: rest) := by
  have := selection.weight_pos
  rw [Selection.weights]
  omega

/-- The selections of an inline fragment are lighter than the fragment. -/
theorem weights_lt_inline (condition : Option String) (directives : List Directive)
    (selections : List Selection) :
    Selection.weights selections < (Selection.inline condition directives selections).weight := by
  simp [Selection.weight]

/-- Gathers the selections that are left into the groups. -/
def gather (runtimeType : TypeDef) (visited : List String) (groups : List FieldGroup) :
    List Selection → Except Fault (List FieldGroup)
  | [] => .ok groups
  | .field node :: rest =>
    if shouldInclude schema context.bindings node.directives then
      gather runtimeType visited (FieldGroup.add node groups) rest
    else gather runtimeType visited groups rest
  | .inline condition directives selections :: rest =>
    if shouldInclude schema context.bindings directives then
      match appliesIfAny schema context condition runtimeType with
      | .error fault => .error fault
      | .ok true => gather runtimeType visited groups (selections ++ rest)
      | .ok false => gather runtimeType visited groups rest
    else gather runtimeType visited groups rest
  | .spread name directives :: rest =>
    match _found : document.fragment? name with
    | none => .error (.unknownFragment name)
    | some fragment =>
      if _fresh : visited.contains name then gather runtimeType visited groups rest
      else if shouldInclude schema context.bindings directives then
        match applies schema context fragment.condition runtimeType with
        | .error fault => .error fault
        | .ok true =>
          gather runtimeType (name :: visited) groups (fragment.selections ++ rest)
        | .ok false => gather runtimeType (name :: visited) groups rest
      else gather runtimeType visited groups rest
termination_by work => ((unvisited document visited).length, Selection.weights work)
decreasing_by
  · exact Prod.Lex.right _ (weights_lt_cons _ _)
  · exact Prod.Lex.right _ (weights_lt_cons _ _)
  · exact Prod.Lex.right _ (weights_append_lt _ (weights_lt_inline _ _ _))
  · exact Prod.Lex.right _ (weights_lt_cons _ _)
  · exact Prod.Lex.right _ (weights_lt_cons _ _)
  · exact Prod.Lex.right _ (weights_lt_cons _ _)
  · exact Prod.Lex.left _ _ (unvisited_length_lt document _found (Bool.not_eq_true _ ▸ _fresh))
  · exact Prod.Lex.left _ _ (unvisited_length_lt document _found (Bool.not_eq_true _ ▸ _fresh))
  · exact Prod.Lex.right _ (weights_lt_cons _ _)

def collect (runtimeType : TypeDef) (selections : List Selection) :
    Except Fault (List FieldGroup) :=
  gather schema document context runtimeType [] [] selections

end Gathering

end GraphQL
