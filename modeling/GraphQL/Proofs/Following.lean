import GraphQL.Proofs.Gathered
import Mathlib.Data.Prod.Lex
import Mathlib.Logic.Relation

/-!
# Following fragments

Gathering, one selection at a time. A turn takes the first of the selections that are left: it adds
a field to the groups, enters a fragment, whose selections then come first, or leaves the selection
out. Gathering is nothing but its turns, so what holds of a turn holds of all fragments that are
entered on the way, also where a later turn ends in a fault.
-/

namespace GraphQL

/-- Which selections are included depends on a schema by its directives only. -/
theorem shouldInclude_congr {a b : Schema} (h : a.directives = b.directives)
    (bindings : Members Json) (directives : List Directive) :
    shouldInclude a bindings directives = shouldInclude b bindings directives := by
  have hadmits : Directive.admits a bindings = Directive.admits b bindings := by
    funext directive
    rw [Directive.admits, Directive.admits, Directive.condition?, Directive.condition?,
      Schema.directive?, Schema.directive?, h]
  rw [shouldInclude, shouldInclude, hadmits]

namespace Gathering

/-- How far gathering has come. -/
structure Point where
  visited : List String := []
  groups : List FieldGroup := []
  work : List Selection

inductive Turn where
  | finished
  | added (node : FieldNode) (next : Point)
  /-- The selections of a fragment on a condition, if it has one, come next. -/
  | entered (condition : Option String) (next : Point)
  | omitted (next : Point)

/-- The point to which a turn leads. -/
def Turn.next? : Turn → Option Point
  | finished => none
  | added _ next => some next
  | entered _ next => some next
  | omitted next => some next

section Turns

variable (schema : Schema) (document : Document) (context : Context) (runtimeType : TypeDef)

/-- The turn on a selection, with the rest of the work at the point. -/
def turnOn (point : Point) : Selection → Except Fault Turn
  | .field node =>
    if shouldInclude schema context.bindings node.directives then
      .ok (.added node { point with groups := FieldGroup.add node point.groups })
    else .ok (.omitted point)
  | .inline condition directives selections =>
    if shouldInclude schema context.bindings directives then
      match appliesIfAny schema context condition runtimeType with
      | .error raised => .error raised
      | .ok true => .ok (.entered condition { point with work := selections ++ point.work })
      | .ok false => .ok (.omitted point)
    else .ok (.omitted point)
  | .spread name directives =>
    match document.fragment? name with
    | none => .error (.unknownFragment name)
    | some fragment =>
      if point.visited.contains name then .ok (.omitted point)
      else if shouldInclude schema context.bindings directives then
        match applies schema context fragment.condition runtimeType with
        | .error raised => .error raised
        | .ok true =>
          .ok (.entered (some fragment.condition)
            { point with
              visited := name :: point.visited, work := fragment.selections ++ point.work })
        | .ok false => .ok (.omitted { point with visited := name :: point.visited })
      else .ok (.omitted point)

def turn (point : Point) : Except Fault Turn :=
  match point.work with
  | [] => .ok .finished
  | selection :: rest => turnOn schema document context runtimeType { point with work := rest } selection

inductive Advance : Point → Point → Prop where
  | added {visited : List String} {groups : List FieldGroup} {node : FieldNode}
      {rest : List Selection}
      (included : shouldInclude schema context.bindings node.directives = true) :
      Advance { visited, groups, work := .field node :: rest }
        { visited, groups := FieldGroup.add node groups, work := rest }
  | opened {visited : List String} {groups : List FieldGroup} {condition : Option String}
      {directives : List Directive} {selections rest : List Selection}
      (included : shouldInclude schema context.bindings directives = true)
      (applies : appliesIfAny schema context condition runtimeType = .ok true) :
      Advance { visited, groups, work := .inline condition directives selections :: rest }
        { visited, groups, work := selections ++ rest }
  | followed {visited : List String} {groups : List FieldGroup} {name : String}
      {directives : List Directive} {fragment : FragmentDef} {rest : List Selection}
      (found : document.fragment? name = some fragment)
      (fresh : visited.contains name = false)
      (included : shouldInclude schema context.bindings directives = true)
      (applies : applies schema context fragment.condition runtimeType = .ok true) :
      Advance { visited, groups, work := .spread name directives :: rest }
        { visited := name :: visited, groups, work := fragment.selections ++ rest }
  | dismissed {visited : List String} {groups : List FieldGroup} {name : String}
      {directives : List Directive} {fragment : FragmentDef} {rest : List Selection}
      (found : document.fragment? name = some fragment)
      (fresh : visited.contains name = false) :
      Advance { visited, groups, work := .spread name directives :: rest }
        { visited := name :: visited, groups, work := rest }
  | omitted {visited : List String} {groups : List FieldGroup} {selection : Selection}
      {rest : List Selection} :
      Advance { visited, groups, work := selection :: rest } { visited, groups, work := rest }

/-- A turn leads from the first point to the second. -/
def Steps (point next : Point) : Prop := ∃ turned,
  turn schema document context runtimeType point = .ok turned ∧ turned.next? = some next

def gatherFrom (point : Point) : Except Fault (List FieldGroup) :=
  gather schema document context runtimeType point.visited point.groups point.work

/-- The points through which gathering comes from the first. -/
def Passes : Point → Point → Prop :=
  Relation.ReflTransGen fun point next => ∃ turned,
    turn schema document context runtimeType point = .ok turned ∧ turned.next? = some next

end Turns

variable {schema : Schema} {document : Document} {context : Context} {runtimeType : TypeDef}

/-- Gathering is what its turns come to. -/
theorem gatherFrom_eq (point : Point) :
    gatherFrom schema document context runtimeType point =
      match turn schema document context runtimeType point with
      | .error raised => .error raised
      | .ok turned =>
        match turned.next? with
        | none => .ok point.groups
        | some next => gatherFrom schema document context runtimeType next := by
  obtain ⟨visited, groups, work⟩ := point
  cases work with
  | nil =>
    rw [gatherFrom, gather]
    rfl
  | cons selection rest =>
    cases selection with
    | field node =>
      rw [gatherFrom, gather]
      simp only [turn, turnOn]
      split <;> rfl
    | inline condition directives selections =>
      rw [gatherFrom, gather]
      simp only [turn, turnOn]
      split
      · rcases appliesIfAny schema context condition runtimeType with raised | (_ | _) <;> rfl
      · rfl
    | spread name directives =>
      simp only [gatherFrom, turn, turnOn]
      cases hf : document.fragment? name with
      | none => rw [gather_unknown hf]
      | some fragment =>
        rw [gather_spread hf]
        dsimp only
        split
        · rfl
        · split
          · rcases applies schema context fragment.condition runtimeType with raised | (_ | _) <;> rfl
          · rfl

theorem advance_field {visited : List String} {groups : List FieldGroup} {node : FieldNode}
    {rest : List Selection} {turned : Turn} {next : Point}
    (h : turnOn schema document context runtimeType { visited, groups, work := rest } (.field node) =
      .ok turned) (hn : turned.next? = some next) :
    Advance schema document context runtimeType { visited, groups, work := .field node :: rest }
      next := by
  rw [turnOn] at h
  split at h
  · next hi =>
    cases h
    cases hn
    exact .added hi
  · cases h
    cases hn
    exact .omitted

theorem advance_inline {visited : List String} {groups : List FieldGroup}
    {condition : Option String} {directives : List Directive} {selections rest : List Selection}
    {turned : Turn} {next : Point}
    (h : turnOn schema document context runtimeType { visited, groups, work := rest }
      (.inline condition directives selections) = .ok turned) (hn : turned.next? = some next) :
    Advance schema document context runtimeType
      { visited, groups, work := .inline condition directives selections :: rest } next := by
  rw [turnOn] at h
  split at h
  · next hi =>
    split at h
    · cases h
    · next ha =>
      cases h
      cases hn
      exact .opened hi ha
    · cases h
      cases hn
      exact .omitted
  · cases h
    cases hn
    exact .omitted

theorem advance_spread {visited : List String} {groups : List FieldGroup} {name : String}
    {directives : List Directive} {rest : List Selection} {turned : Turn} {next : Point}
    (h : turnOn schema document context runtimeType { visited, groups, work := rest }
      (.spread name directives) = .ok turned) (hn : turned.next? = some next) :
    Advance schema document context runtimeType
      { visited, groups, work := .spread name directives :: rest } next := by
  rw [turnOn] at h
  split at h
  · cases h
  · next fragment hf =>
    split at h
    · cases h
      cases hn
      exact .omitted
    · next hv =>
      have hfresh : visited.contains name = false := by simpa using hv
      split at h
      · next hi =>
        split at h
        · cases h
        · next ha =>
          cases h
          cases hn
          exact .followed hf hfresh hi ha
        · cases h
          cases hn
          exact .dismissed hf hfresh
      · cases h
        cases hn
        exact .omitted

theorem Steps.advance {point next : Point}
    (h : Steps schema document context runtimeType point next) :
    Advance schema document context runtimeType point next := by
  obtain ⟨turned, h, hn⟩ := h
  obtain ⟨visited, groups, work⟩ := point
  cases work with
  | nil =>
    cases h
    cases hn
  | cons selection rest =>
    cases selection with
    | field node => exact advance_field h hn
    | inline condition directives selections => exact advance_inline h hn
    | spread name directives => exact advance_spread h hn

/-- How much is left to gather: the fragments that can be followed, then the selections. -/
def Point.measure (document : Document) (point : Point) : Nat ×ₗ Nat :=
  toLex ((unvisited document point.visited).length, Selection.weights point.work)

theorem measure_turn_lt {point next : Point} {turned : Turn}
    (h : turn schema document context runtimeType point = .ok turned)
    (hn : turned.next? = some next) : next.measure document < point.measure document := by
  cases Steps.advance ⟨turned, h, hn⟩ with
  | added | omitted => exact Prod.Lex.right _ (weights_lt_cons _ _)
  | opened => exact Prod.Lex.right _ (weights_append_lt _ (weights_lt_inline _ _ _))
  | followed found fresh | dismissed found fresh =>
    exact Prod.Lex.left _ _ (unvisited_length_lt document found fresh)

variable (schema document context runtimeType) in
/-- What holds of a point wherever it holds of the next one holds of every point. -/
theorem Point.induction {motive : Point → Prop}
    (step : ∀ point, (∀ turned next, turn schema document context runtimeType point = .ok turned →
      turned.next? = some next → motive next) → motive point) (point : Point) : motive point := by
  have hwf : WellFounded fun a b : Point => a.measure document < b.measure document :=
    InvImage.wf _ wellFounded_lt
  exact hwf.induction point fun point ih =>
    step point fun turned next h hn => ih next (measure_turn_lt h hn)

/-- What is gathered depends on a schema and a runtime type only by which selections are included and
which conditions apply. -/
theorem collect_congr {other : Schema} {otherType : TypeDef}
    (hincluded : ∀ directives, shouldInclude other context.bindings directives =
      shouldInclude schema context.bindings directives)
    (happlies : ∀ condition, applies other context condition otherType =
      applies schema context condition runtimeType) (selections : List Selection) :
    collect other document context otherType selections =
      collect schema document context runtimeType selections := by
  have hany : ∀ condition, appliesIfAny other context condition otherType =
      appliesIfAny schema context condition runtimeType := by
    intro condition
    cases condition with
    | none => rfl
    | some condition => exact happlies condition
  have hturn : ∀ point : Point, turn other document context otherType point =
      turn schema document context runtimeType point := by
    intro point
    rw [turn, turn]
    cases point.work with
    | nil => rfl
    | cons selection rest =>
      cases selection with
      | field node => simp only [turnOn, hincluded]
      | inline condition directives selections => simp only [turnOn, hincluded, hany]
      | spread name directives => simp only [turnOn, hincluded, happlies]
  have hfrom : ∀ point : Point, gatherFrom other document context otherType point =
      gatherFrom schema document context runtimeType point := by
    intro point
    induction point using Point.induction schema document context runtimeType with
    | step point ih =>
      rw [gatherFrom_eq, gatherFrom_eq, hturn]
      cases ht : turn schema document context runtimeType point with
      | error raised => rfl
      | ok turned =>
        cases hn : turned.next? with
        | none => simp only [hn]
        | some next => simpa only [hn] using ih turned next ht hn
  exact hfrom { work := selections }

/-- A fragment is entered if its condition is a visible type for which the runtime type is
possible. -/
theorem turn_entered {point next : Point} {condition : String}
    (h : turn schema document context runtimeType point = .ok (.entered (some condition) next)) :
    ∃ type, schema.visibleType? context condition = some type ∧
      schema.isPossibleType type runtimeType.name = true := by
  have happlies : applies schema context condition runtimeType = .ok true := by
    obtain ⟨visited, groups, work⟩ := point
    cases work with
    | nil => cases h
    | cons selection rest =>
      simp only [turn] at h
      cases selection with
      | field node =>
        rw [turnOn] at h
        split at h <;> cases h
      | inline other directives selections =>
        rw [turnOn] at h
        split at h
        · split at h <;> cases h
          assumption
        · cases h
      | spread name directives =>
        rw [turnOn] at h
        split at h
        · cases h
        · split at h
          · cases h
          · split at h
            · split at h <;> cases h
              assumption
            · cases h
  unfold applies at happlies
  split at happlies
  · next type hv => exact ⟨type, hv, Except.ok.inj happlies⟩
  · cases happlies

end Gathering

end GraphQL
