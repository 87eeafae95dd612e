import GraphQL.Request.Gathering
import Mathlib.Data.List.Basic

/-!
# Gathered groups

What gathering preserves: whatever holds of the groups at the start and is kept when a node is added
holds of the groups at the end. The response keys of the groups are distinct.
-/

namespace GraphQL

/-- The same fault, or results that are related. -/
inductive Concur {α β : Type} (R : α → β → Prop) : Except Fault α → Except Fault β → Prop where
  | error (raised : Fault) : Concur R (.error raised) (.error raised)
  | ok {a : α} {b : β} (h : R a b) : Concur R (.ok a) (.ok b)

theorem Concur.imp {α β : Type} {R S : α → β → Prop} {a : Except Fault α} {b : Except Fault β}
    (h : Concur R a b) (hi : ∀ {x y}, R x y → S x y) : Concur S a b := by
  cases h with
  | error raised => exact .error raised
  | ok h => exact .ok (hi h)

theorem Concur.symm {α β : Type} {R : α → β → Prop} {a : Except Fault α} {b : Except Fault β}
    (h : Concur R a b) : Concur (flip R) b a := by
  cases h with
  | error raised => exact .error raised
  | ok h => exact .ok h

namespace FieldGroup

theorem keys_add (node : FieldNode) (groups : List FieldGroup) :
    (add node groups).map key =
      if node.responseKey ∈ groups.map key then groups.map key
      else groups.map key ++ [node.responseKey] := by
  induction groups with
  | nil => rfl
  | cons group rest ih =>
    by_cases h : group.key = node.responseKey
    · simp [add, h]
    · simp only [add, h, if_false, List.map_cons, ih, List.mem_cons, Ne.symm h, false_or]
      split <;> rfl

theorem nodup_add {node : FieldNode} {groups : List FieldGroup}
    (h : (groups.map key).Nodup) : ((add node groups).map key).Nodup := by
  rw [keys_add]
  split
  · exact h
  · next hn =>
    refine List.nodup_append.mpr ⟨h, by simp, fun a ha b hb => ?_⟩
    rintro rfl
    exact hn (List.mem_singleton.mp hb ▸ ha)

/-- The nodes of the groups are those that were added. -/
theorem mem_nodes_add {node other : FieldNode} {groups : List FieldGroup} {group : FieldGroup}
    (hg : group ∈ add node groups) (hn : other ∈ group.nodes) :
    other = node ∨ ∃ old ∈ groups, other ∈ old.nodes := by
  induction groups with
  | nil =>
    obtain rfl := List.mem_singleton.mp hg
    exact .inl (by simpa [nodes] using hn)
  | cons first rest ih =>
    by_cases h : first.key = node.responseKey
    · simp only [add, h, if_true] at hg
      rcases List.mem_cons.mp hg with rfl | hg
      · rw [nodes, ← List.cons_append] at hn
        rcases List.mem_append.mp hn with hn | hn
        · exact .inr ⟨first, List.mem_cons_self, hn⟩
        · exact .inl (List.mem_singleton.mp hn)
      · exact .inr ⟨group, List.mem_cons_of_mem _ hg, hn⟩
    · simp only [add, h, if_false] at hg
      rcases List.mem_cons.mp hg with rfl | hg
      · exact .inr ⟨group, List.mem_cons_self, hn⟩
      · rcases ih hg with he | ⟨old, ho, hn⟩
        · exact .inl he
        · exact .inr ⟨old, List.mem_cons_of_mem _ ho, hn⟩

end FieldGroup

namespace Gathering

variable {schema : Schema} {document : Document} {context : Context} {runtimeType : TypeDef}

theorem gather_unknown {visited : List String} {groups : List FieldGroup} {name : String}
    {directives : List Directive} {rest : List Selection} (hf : document.fragment? name = none) :
    gather schema document context runtimeType visited groups (.spread name directives :: rest) =
      .error (.unknownFragment name) := by
  rw [gather]
  split
  · rfl
  · next he => rw [hf] at he; cases he

theorem gather_spread {visited : List String} {groups : List FieldGroup} {name : String}
    {directives : List Directive} {rest : List Selection} {fragment : FragmentDef}
    (hf : document.fragment? name = some fragment) :
    gather schema document context runtimeType visited groups (.spread name directives :: rest) =
      if visited.contains name then
        gather schema document context runtimeType visited groups rest
      else if shouldInclude schema context.bindings directives then
        match applies schema context fragment.condition runtimeType with
        | .error fault => .error fault
        | .ok true =>
          gather schema document context runtimeType (name :: visited) groups
            (fragment.selections ++ rest)
        | .ok false => gather schema document context runtimeType (name :: visited) groups rest
      else gather schema document context runtimeType visited groups rest := by
  rw [gather]
  split
  · next he => rw [hf] at he; cases he
  · next found he =>
    obtain rfl : fragment = found := Option.some.inj (hf.symm.trans he)
    rfl

/-- What holds of the groups at the start and is kept when a node is added holds at the end. `Q` is
what is known of the selections, and passes to those of the fragments. -/
theorem gather_preserves {P : List FieldGroup → Prop} {Q : Selection → Prop}
    (hfield : ∀ node groups, Q (.field node) → P groups → P (FieldGroup.add node groups))
    (hinline : ∀ condition directives selections, Q (.inline condition directives selections) →
      ∀ selection ∈ selections, Q selection)
    (hspread : ∀ name directives fragment, Q (.spread name directives) →
      document.fragment? name = some fragment → ∀ selection ∈ fragment.selections, Q selection)
    {visited : List String} {groups result : List FieldGroup} {work : List Selection}
    (h : gather schema document context runtimeType visited groups work = .ok result)
    (hq : ∀ selection ∈ work, Q selection) (hp : P groups) : P result := by
  induction visited, groups, work using gather.induct schema document context runtimeType with
  | case1 visited groups =>
    rw [gather] at h
    obtain rfl := Except.ok.inj h
    exact hp
  | case2 visited groups node rest hi ih =>
    rw [gather, if_pos hi] at h
    exact ih h (fun s hs => hq s (List.mem_cons_of_mem _ hs))
      (hfield node groups (hq _ List.mem_cons_self) hp)
  | case3 visited groups node rest hi ih =>
    rw [gather, if_neg hi] at h
    exact ih h (fun s hs => hq s (List.mem_cons_of_mem _ hs)) hp
  | case4 visited groups condition directives selections rest hi fault ha =>
    rw [gather, if_pos hi, ha] at h
    cases h
  | case5 visited groups condition directives selections rest hi ha ih =>
    rw [gather, if_pos hi, ha] at h
    refine ih h (fun s hs => ?_) hp
    rcases List.mem_append.mp hs with hs | hs
    · exact hinline _ _ _ (hq _ List.mem_cons_self) s hs
    · exact hq s (List.mem_cons_of_mem _ hs)
  | case6 visited groups condition directives selections rest hi ha ih =>
    rw [gather, if_pos hi, ha] at h
    exact ih h (fun s hs => hq s (List.mem_cons_of_mem _ hs)) hp
  | case7 visited groups condition directives selections rest hi ih =>
    rw [gather, if_neg hi] at h
    exact ih h (fun s hs => hq s (List.mem_cons_of_mem _ hs)) hp
  | case8 visited groups name directives rest hf =>
    rw [gather_unknown hf] at h
    cases h
  | case9 visited groups name directives rest fragment hf hv ih =>
    rw [gather_spread hf, if_pos hv] at h
    exact ih h (fun s hs => hq s (List.mem_cons_of_mem _ hs)) hp
  | case10 visited groups name directives rest fragment hf hv hi fault ha =>
    rw [gather_spread hf, if_neg hv, if_pos hi, ha] at h
    cases h
  | case11 visited groups name directives rest fragment hf hv hi ha ih =>
    rw [gather_spread hf, if_neg hv, if_pos hi, ha] at h
    refine ih h (fun s hs => ?_) hp
    rcases List.mem_append.mp hs with hs | hs
    · exact hspread _ _ _ (hq _ List.mem_cons_self) hf s hs
    · exact hq s (List.mem_cons_of_mem _ hs)
  | case12 visited groups name directives rest fragment hf hv hi ha ih =>
    rw [gather_spread hf, if_neg hv, if_pos hi, ha] at h
    exact ih h (fun s hs => hq s (List.mem_cons_of_mem _ hs)) hp
  | case13 visited groups name directives rest fragment hf hv hi ih =>
    rw [gather_spread hf, if_neg hv, if_neg hi] at h
    exact ih h (fun s hs => hq s (List.mem_cons_of_mem _ hs)) hp

theorem nodup_collect {selections : List Selection} {groups : List FieldGroup}
    (h : collect schema document context runtimeType selections = .ok groups) :
    (groups.map FieldGroup.key).Nodup :=
  gather_preserves (P := fun groups => (groups.map FieldGroup.key).Nodup) (Q := fun _ => True)
    (fun _ _ _ hn => FieldGroup.nodup_add hn) (fun _ _ _ _ _ _ => trivial)
    (fun _ _ _ _ _ _ _ => trivial) h (fun _ _ => trivial) List.nodup_nil

end Gathering

end GraphQL
