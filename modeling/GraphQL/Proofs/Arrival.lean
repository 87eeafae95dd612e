import GraphQL.Proofs.PathOrder
import GraphQL.Proofs.Permanence
import Mathlib.Data.List.Lex

/-!
# The order of errors is canonical

Errors are pushed into the tree whenever their tasks come to them, between writes and records of
types. The response lists them by path, and the comparison that sorts them decides a total order:
one of segments, lifted to paths segment by segment and from there to paths that may be unset.
Sorting keeps the order of the errors of one path. So the list depends on the order in which the
errors of each path were pushed, and on nothing else.
-/

namespace GraphQL

/-- The comparison decides a strict total order: it tells which of two values comes first, and
calls them equal only if they are. -/
structure Decides {α : Type} (comparison : α → α → Ordering) (precedes : α → α → Prop) :
    Prop where
  lt_iff : ∀ a b, comparison a b = .lt ↔ precedes a b
  eq_iff : ∀ a b, comparison a b = .eq ↔ a = b
  gt_iff : ∀ a b, comparison a b = .gt ↔ precedes b a
  total : IsStrictTotalOrder α precedes

/-- Of a lawful comparison it is enough to know when the first value comes before the second. -/
theorem decides_of_lt_iff {α : Type} {comparison : α → α → Ordering} {precedes : α → α → Prop}
    [Std.TransCmp comparison] [Std.LawfulEqCmp comparison]
    (h : ∀ a b, comparison a b = .lt ↔ precedes a b) : Decides comparison precedes where
  lt_iff := h
  eq_iff _ _ := Std.LawfulEqCmp.compare_eq_iff_eq
  gt_iff a b := by rw [← h b a, Std.OrientedCmp.gt_iff_lt]
  total :=
    { irrefl := fun a ha => by
        have hself : comparison a a = .eq := Std.ReflCmp.compare_self
        rw [(h a a).mpr ha] at hself
        cases hself
      trans := fun a b c hab hbc =>
        (h a c).mp (Std.TransCmp.lt_trans ((h a b).mpr hab) ((h b c).mpr hbc))
      trichotomous := fun a b hab hba => by
        cases hc : comparison a b with
        | lt => exact absurd ((h a b).mp hc) hab
        | eq => exact Std.LawfulEqCmp.eq_of_compare hc
        | gt => exact absurd ((h b a).mp (Std.OrientedCmp.lt_of_gt hc)) hba }

namespace PathSegment

/-- The order of segments: keys by code points, indices by size, and every key before every
index. -/
inductive Precedes : PathSegment → PathSegment → Prop
  | keys {a b : String} (h : a < b) : Precedes (key a) (key b)
  | indices {a b : Nat} (h : a < b) : Precedes (index a) (index b)
  | key_index (name : String) (place : Nat) : Precedes (key name) (index place)

theorem compare_eq_lt (a b : PathSegment) : compare a b = .lt ↔ a.Precedes b := by
  constructor
  · intro h
    cases a <;> cases b <;> simp only [compare_eq, PathSegment.compare] at h
    case key.key => exact .keys (compareOfLessAndEq_eq_lt.mp h)
    case key.index => exact .key_index _ _
    case index.key => cases h
    case index.index => exact .indices (Nat.compare_eq_lt.mp h)
  · intro h
    cases h with
    | keys h => exact compareOfLessAndEq_eq_lt.mpr h
    | indices h => exact Nat.compare_eq_lt.mpr h
    | key_index => rfl

theorem decides : Decides compare Precedes := decides_of_lt_iff compare_eq_lt

end PathSegment

namespace Path

/-- The order of paths: by the first segments that differ, and a path before those that extend
it. -/
def Precedes : Path → Path → Prop := List.Lex PathSegment.Precedes

theorem compare_cons (here there : PathSegment) (a b : Path) :
    compare (here :: a : Path) (there :: b) = (compare here there).then (compare a b) := by
  simp only [List.compare_eq_compareLex, List.compareLex_cons_cons]

theorem compare_eq_lt (a b : Path) : compare a b = .lt ↔ a.Precedes b := by
  induction a generalizing b with
  | nil =>
    cases b with
    | nil => exact ⟨nofun, nofun⟩
    | cons segment b => exact ⟨fun _ => .nil, fun _ => rfl⟩
  | cons here a ih =>
    cases b with
    | nil => exact ⟨nofun, nofun⟩
    | cons there b =>
      rw [compare_cons, Ordering.then_eq_lt, PathSegment.compare_eq_lt, ih]
      constructor
      · rintro (h | ⟨he, h⟩)
        · exact .rel h
        · obtain rfl := Std.LawfulEqOrd.eq_of_compare he
          exact .cons h
      · intro h
        cases h with
        | rel h => exact .inl h
        | cons h => exact .inr ⟨Std.ReflOrd.compare_self, h⟩

theorem decides : Decides (α := Path) compare Precedes := decides_of_lt_iff compare_eq_lt

/-- The order of the paths of errors: by path, and an unset path before every path. -/
def ListedBefore : Option Path → Option Path → Prop := Option.lt Precedes

theorem compare_option_eq_lt (a b : Option Path) : compare a b = .lt ↔ ListedBefore a b := by
  cases a with
  | none =>
    cases b with
    | none => exact ⟨nofun, nofun⟩
    | some b => exact ⟨fun _ => trivial, fun _ => rfl⟩
  | some a =>
    cases b with
    | none => exact ⟨nofun, nofun⟩
    | some b => exact compare_eq_lt a b

theorem decides_option : Decides compare ListedBefore := decides_of_lt_iff compare_option_eq_lt

/-- A key of digits is still a key. -/
example :
    compare (some [.key "z"] : Option Path) (some [.index 0]) = .lt ∧
    compare (some [.key "10"] : Option Path) (some [.key "9"]) = .lt ∧
    compare (some [.index 9] : Option Path) (some [.index 10]) = .lt := by decide

end Path

namespace ResultTree

/-- What arrives at the tree from a task: a change of the data or the types, or an error. -/
inductive Arrival where
  | change (change : Change)
  | raise (error : ResponseError)

def Arrival.error? : Arrival → Option ResponseError
  | change _ => none
  | raise error => some error

/-- The tree after an arrival. -/
def receive (tree : ResultTree) : Arrival → ResultTree
  | .change change => tree.apply change
  | .raise error => tree.report [error]

/-- The errors that are pushed, in their order of arrival. -/
def pushed (arrivals : List Arrival) : List ResponseError := arrivals.filterMap Arrival.error?

/-- The response to what has arrived at a new tree. -/
def answer (arrivals : List Arrival) : Response :=
  (arrivals.foldl receive ({} : ResultTree)).response

theorem errors_apply (tree : ResultTree) (change : Change) :
    (tree.apply change).errors = tree.errors := by
  cases change with
  | write write => exact State.errors_write ..
  | record path type => rfl

theorem errors_receiveAll (tree : ResultTree) (arrivals : List Arrival) :
    (arrivals.foldl receive tree).errors = tree.errors ++ pushed arrivals := by
  induction arrivals generalizing tree with
  | nil => exact (List.append_nil _).symm
  | cons arrival rest ih =>
    rw [List.foldl_cons, ih]
    cases arrival with
    | change change => exact congrArg (· ++ pushed rest) (errors_apply tree change)
    | raise error => exact List.append_assoc tree.errors [error] (pushed rest)

theorem errors_answer (arrivals : List Arrival) :
    (answer arrivals).errors = Response.sortErrors (pushed arrivals) :=
  congrArg Response.sortErrors (errors_receiveAll {} arrivals)

end ResultTree

namespace Response

variable {errors : List ResponseError}

/-- Of two errors in the order of their paths, the first has the same path as the second or one
that is listed before it. -/
theorem InPathOrder.listedBefore (h : InPathOrder errors) :
    errors.Pairwise fun a b => a.path = b.path ∨ Path.ListedBefore a.path b.path := by
  refine h.imp fun {a b} hab => ?_
  cases hc : compare a.path b.path with
  | lt => exact .inr ((Path.decides_option.lt_iff _ _).mp hc)
  | eq => exact .inl ((Path.decides_option.eq_iff _ _).mp hc)
  | gt =>
    rw [hc] at hab
    cases hab

/-- Sorting brings two lists of errors to one exactly if the errors of each path are the same in
both, in the same order. -/
theorem sortErrors_eq_iff (errors others : List ResponseError) :
    sortErrors errors = sortErrors others ↔
      ∀ path, errorsAt path errors = errorsAt path others := by
  constructor
  · intro h path
    rw [← errorsAt_sortErrors path errors, h, errorsAt_sortErrors]
  · intro h
    refine (inPathOrder_sortErrors errors).eq_of_errorsAt (inPathOrder_sortErrors others) ?_
    intro path
    rw [errorsAt_sortErrors, errorsAt_sortErrors, h]

end Response

namespace ResultTree

/-- **The order of errors is canonical.** Whatever else arrives at the tree, the response lists the
errors that were pushed, each as often as it was, in the order of their paths, and those of one
path in their order of arrival. Two orders of arrival are answered by the same list exactly if the
errors of each path arrive in the same order in both. The order of paths is total, as is the order
of segments that it follows and its extension to unset paths. -/
theorem error_order_canonical (arrivals others : List Arrival) :
    Decides compare PathSegment.Precedes ∧
    Decides (α := Path) compare Path.Precedes ∧
    Decides compare Path.ListedBefore ∧
    (answer arrivals).errors.Perm (pushed arrivals) ∧
    ((answer arrivals).errors.Pairwise fun a b =>
      a.path = b.path ∨ Path.ListedBefore a.path b.path) ∧
    (∀ path, Response.errorsAt path (answer arrivals).errors =
      Response.errorsAt path (pushed arrivals)) ∧
    ((answer arrivals).errors = (answer others).errors ↔
      ∀ path, Response.errorsAt path (pushed arrivals) =
        Response.errorsAt path (pushed others)) := by
  refine ⟨PathSegment.decides, Path.decides, Path.decides_option, ?_, ?_, ?_, ?_⟩
  · rw [errors_answer]
    exact Response.sortErrors_perm _
  · rw [errors_answer]
    exact (Response.inPathOrder_sortErrors _).listedBefore
  · intro path
    rw [errors_answer]
    exact Response.errorsAt_sortErrors path _
  · rw [errors_answer, errors_answer]
    exact Response.sortErrors_eq_iff _ _

end ResultTree

end GraphQL
