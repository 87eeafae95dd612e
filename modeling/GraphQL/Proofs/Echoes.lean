import Mathlib.Data.List.Basic

/-!
# Echoes

A list with echoes repeats elements that stood before. Elements keep the order of their first
occurrence, so whatever depends on first occurrences only cannot tell a list from its echoes.
-/

namespace GraphQL

/-- `Echoes seen xs ys`: `ys` is `xs` with echoes put in, elements that were seen at the start or
stand before. -/
inductive Echoes {α : Type} : List α → List α → List α → Prop where
  | nil (seen : List α) : Echoes seen [] []
  | keep {seen xs ys : List α} (x : α) (rest : Echoes (seen ++ [x]) xs ys) :
      Echoes seen (x :: xs) (x :: ys)
  | echo {seen xs ys : List α} {x : α} (hx : x ∈ seen) (rest : Echoes seen xs ys) :
      Echoes seen xs (x :: ys)

namespace Echoes

variable {α β ε : Type} {seen more xs ys zs xs' ys' : List α}

theorem refl (seen xs : List α) : Echoes seen xs xs := by
  induction xs generalizing seen with
  | nil => exact .nil seen
  | cons x xs ih => exact .keep x (ih _)

theorem mono (h : Echoes seen xs ys) (hs : seen ⊆ more) : Echoes more xs ys := by
  induction h generalizing more with
  | nil => exact .nil more
  | @keep seen xs ys x _ ih => exact .keep x (ih (List.append_subset.mpr
      ⟨List.Subset.trans hs (List.subset_append_left _ _), List.subset_append_right _ _⟩))
  | echo hx _ ih => exact .echo (hs hx) (ih hs)

/-- Echoes bring nothing new. -/
theorem subset (h : Echoes seen xs ys) : ys ⊆ seen ++ xs := by
  induction h with
  | nil => exact List.nil_subset _
  | keep x _ ih =>
    refine List.cons_subset.mpr ⟨by simp, List.Subset.trans ih ?_⟩
    rw [List.append_assoc, List.singleton_append]
    exact List.Subset.refl _
  | echo hx _ ih => exact List.cons_subset.mpr ⟨List.mem_append_left _ hx, ih⟩

theorem of_subset (h : ys ⊆ seen) : Echoes seen [] ys := by
  induction ys with
  | nil => exact .nil seen
  | cons y ys ih =>
    obtain ⟨hy, hys⟩ := List.cons_subset.mp h
    exact .echo hy (ih hys)

theorem append (h : Echoes seen xs ys) (k : Echoes (seen ++ xs) xs' ys') :
    Echoes seen (xs ++ xs') (ys ++ ys') := by
  induction h with
  | nil => simpa using k
  | keep x _ ih => exact .keep x (ih (by simpa using k))
  | echo hx _ ih => exact .echo hx (ih k)

theorem trans (h : Echoes seen xs ys) (k : Echoes seen ys zs) : Echoes seen xs zs := by
  induction k generalizing xs with
  | nil => exact h
  | @keep seen ys zs y _ ih =>
    cases h with
    | keep _ rest => exact .keep y (ih rest)
    | echo hy rest =>
      have hseen : seen ++ [y] ⊆ seen :=
        List.append_subset.mpr ⟨List.Subset.refl _, by simpa using hy⟩
      exact .echo hy ((ih (rest.mono (List.subset_append_left _ _))).mono hseen)
  | echo hx _ ih => exact .echo hx (ih h)

/-- An element at the end that stood before. -/
theorem concat (h : Echoes seen xs ys) {x : α} (hx : x ∈ seen ++ xs) :
    Echoes seen xs (ys ++ [x]) := by
  have hlast : Echoes (seen ++ xs) [] [x] := .of_subset (by simpa using hx)
  simpa using h.append hlast

/-- Echoes of images are images of echoes. -/
theorem of_map {f : α → β} {zs : List β} (h : Echoes (seen.map f) (xs.map f) zs) :
    ∃ ys, zs = ys.map f ∧ Echoes seen xs ys := by
  generalize hs : seen.map f = fseen at h
  generalize hx : xs.map f = fxs at h
  induction h generalizing seen xs with
  | nil => exact ⟨[], rfl, by rw [List.map_eq_nil_iff.mp hx]; exact .nil seen⟩
  | keep y _ ih =>
    obtain ⟨x, rest, rfl, rfl, hrest⟩ := List.map_eq_cons_iff.mp hx
    have hseen : (seen ++ [x]).map f = seen.map f ++ [f x] := by simp
    obtain ⟨ys, rfl, hy⟩ := ih (hseen.trans (hs ▸ rfl)) hrest
    exact ⟨x :: ys, rfl, .keep x hy⟩
  | echo hm _ ih =>
    obtain ⟨ys, rfl, hy⟩ := ih hs hx
    obtain ⟨x, hx, rfl⟩ := List.mem_map.mp (hs ▸ hm)
    exact ⟨x :: ys, rfl, .echo hx hy⟩

theorem flatMap (f : α → List β) (h : Echoes seen xs ys) :
    Echoes (seen.flatMap f) (xs.flatMap f) (ys.flatMap f) := by
  induction h with
  | nil => exact .nil _
  | @keep seen xs ys x _ ih =>
    have hrest : Echoes (seen.flatMap f ++ f x) (xs.flatMap f) (ys.flatMap f) := by simpa using ih
    exact (Echoes.refl _ (f x)).append hrest
  | @echo seen xs ys x hx _ ih =>
    have hfirst : Echoes (seen.flatMap f) [] (f x) :=
      .of_subset fun y hy => List.mem_flatMap.mpr ⟨x, hx, hy⟩
    exact hfirst.append (by rwa [List.append_nil])

end Echoes

end GraphQL
