import GraphQL.Response.Error
import Mathlib.Data.List.Basic

/-!
# Errors in the order of their paths

The order of paths is a linear one, and the errors of a response are sorted by it without changing
the order of those that have the same path. So what a response says is settled by the errors of
each path alone, in the order in which they were reported: the order of arrival among different
paths leaves no trace.
-/

namespace GraphQL

namespace PathSegment

theorem compare_eq (a b : PathSegment) : compare a b = PathSegment.compare a b := rfl

instance : Std.OrientedOrd PathSegment where
  eq_swap {a b} := by
    cases a <;> cases b <;> simp only [compare_eq, PathSegment.compare]
    · exact Std.OrientedOrd.eq_swap
    · rfl
    · rfl
    · exact Std.OrientedOrd.eq_swap

instance : Std.TransOrd PathSegment where
  isLE_trans {a b c} hab hbc := by
    cases a <;> cases b <;> cases c <;> simp only [compare_eq, PathSegment.compare] at hab hbc ⊢
    case key.key.key => exact Std.TransCmp.isLE_trans hab hbc
    case index.index.index => exact Std.TransCmp.isLE_trans hab hbc
    all_goals simp at hab hbc ⊢

instance : Std.LawfulEqOrd PathSegment where
  eq_of_compare {a b} h := by
    cases a <;> cases b <;> simp only [compare_eq, PathSegment.compare] at h
    · rw [Std.LawfulEqOrd.eq_of_compare h]
    · cases h
    · cases h
    · rw [Std.LawfulEqOrd.eq_of_compare h]

end PathSegment

namespace Response

/-- The errors of one path, in the order in which they were reported. -/
def errorsAt (path : Option Path) (errors : List ResponseError) : List ResponseError :=
  errors.filter fun error => error.path = path

/-- True of errors in the order of their paths. -/
def InPathOrder (errors : List ResponseError) : Prop :=
  errors.Pairwise fun a b => (compare a.path b.path).isLE

variable {errors others : List ResponseError} {error : ResponseError} {path : Option Path}

theorem mem_errorsAt : error ∈ errorsAt path errors ↔ error ∈ errors ∧ error.path = path := by
  simp [errorsAt]

theorem errorsAt_append (path : Option Path) (errors others : List ResponseError) :
    errorsAt path (errors ++ others) = errorsAt path errors ++ errorsAt path others :=
  List.filter_append ..

theorem sortErrors_perm (errors : List ResponseError) : (sortErrors errors).Perm errors :=
  List.mergeSort_perm ..

theorem path_total (a b : ResponseError) :
    ((compare a.path b.path).isLE || (compare b.path a.path).isLE) = true := by
  rw [Std.OrientedOrd.eq_swap (a := b.path)]
  cases compare a.path b.path <;> rfl

theorem inPathOrder_sortErrors (errors : List ResponseError) : InPathOrder (sortErrors errors) :=
  List.pairwise_mergeSort (fun _ _ _ => Std.TransCmp.isLE_trans) path_total errors

/-- Sorting does not change the order of the errors of one path. -/
theorem errorsAt_sortErrors (path : Option Path) (errors : List ResponseError) :
    errorsAt path (sortErrors errors) = errorsAt path errors := by
  have hordered : InPathOrder (errorsAt path errors) := by
    refine List.pairwise_of_forall_mem_list fun a ha b hb => ?_
    rw [(mem_errorsAt.mp ha).2, (mem_errorsAt.mp hb).2]
    exact Std.ReflCmp.isLE_rfl
  have hsub : (errorsAt path errors).Sublist (sortErrors errors) :=
    List.sublist_mergeSort (fun _ _ _ => Std.TransCmp.isLE_trans) path_total hordered
      List.filter_sublist
  have hfiltered := hsub.filter fun error => error.path = path
  simp only [errorsAt, List.filter_filter, Bool.and_self] at hfiltered ⊢
  exact (hfiltered.eq_of_length ((sortErrors_perm errors).filter _).length_eq.symm).symm

theorem InPathOrder.head_le {rest : List ResponseError} (h : InPathOrder (error :: rest))
    {other : ResponseError} (hm : other ∈ error :: rest) :
    (compare error.path other.path).isLE := by
  rcases List.mem_cons.mp hm with rfl | hm
  · exact Std.ReflCmp.isLE_rfl
  · exact List.rel_of_pairwise_cons h hm

/-- Errors in the order of their paths are the same if those of each path are. -/
theorem InPathOrder.eq_of_errorsAt (ha : InPathOrder errors) (hb : InPathOrder others)
    (h : ∀ path, errorsAt path errors = errorsAt path others) : errors = others := by
  have hmem : ∀ error, error ∈ errors ↔ error ∈ others := by
    intro error
    simpa [mem_errorsAt] using congrArg (error ∈ ·) (h error.path)
  induction errors generalizing others with
  | nil => simpa [List.eq_nil_iff_forall_not_mem, eq_comm] using hmem
  | cons first rest ih =>
    cases others with
    | nil => simpa using (hmem first).mp List.mem_cons_self
    | cons other others =>
      have hpath : first.path = other.path := Std.LawfulEqOrd.eq_of_compare <|
        Std.OrientedCmp.isLE_antisymm (ha.head_le ((hmem other).mpr List.mem_cons_self))
          (hb.head_le ((hmem first).mp List.mem_cons_self))
      have hfirst : first :: errorsAt first.path rest = other :: errorsAt first.path others := by
        simpa [errorsAt, hpath] using h first.path
      obtain ⟨rfl, -⟩ := List.cons.inj hfirst
      have hrest : ∀ path, errorsAt path rest = errorsAt path others := by
        intro path
        have hwhole := h path
        simp only [errorsAt, List.filter_cons] at hwhole ⊢
        split at hwhole
        · exact (List.cons.inj hwhole).2
        · exact hwhole
      refine congrArg _ (ih ha.of_cons hb.of_cons hrest fun error => ?_)
      simpa [mem_errorsAt] using congrArg (error ∈ ·) (hrest error.path)

/-- The same errors, each time in the order of their paths, have the same paths one by one. -/
theorem InPathOrder.path_eq_of_perm (ha : InPathOrder errors) (hb : InPathOrder others)
    (h : errors.Perm others) :
    errors.map ResponseError.path = others.map ResponseError.path := by
  have hanti : ∀ a b : Option Path, (compare a b).isLE → (compare b a).isLE → a = b :=
    fun a b hab hba => Std.LawfulEqOrd.eq_of_compare (Std.OrientedCmp.isLE_antisymm hab hba)
  exact (h.map _).eq_of_pairwise (fun a b _ _ => hanti a b) (List.pairwise_map.mpr ha)
    (List.pairwise_map.mpr hb)

end Response

end GraphQL
