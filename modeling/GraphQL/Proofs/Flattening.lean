import GraphQL.Proofs.Expansion

/-!
# Gathering is flattening, then grouping

The selections of an object are flattened into the field nodes that take part, one after another;
each node is then added to the group of its response key. Flattening a list of selections is
flattening one selection after the other, where all that one has to know of those before is which
fragments have been followed. The nodes of a group are the nodes of its key in the order in which
they were met.
-/

namespace GraphQL

namespace FieldGroup

theorem nodesAt_add (key : String) (node : FieldNode) (groups : List FieldGroup) :
    nodesAt key (add node groups) =
      nodesAt key groups ++ if node.responseKey = key then [node] else [] := by
  induction groups with
  | nil => by_cases hk : node.responseKey = key <;> simp [add, nodesAt, nodes, hk]
  | cons group rest ih =>
    by_cases hg : group.key = node.responseKey
    · by_cases hk : node.responseKey = key
      · simp [add, nodesAt, nodes, hg, hk]
      · simp [add, nodesAt, hg, hk]
    · by_cases hk : group.key = key
      · subst hk
        simp [add, nodesAt, hg, Ne.symm hg]
      · simpa [add, nodesAt, hg, hk] using ih

theorem nodesAt_addAll (key : String) (nodes : List FieldNode) (groups : List FieldGroup) :
    nodesAt key (addAll nodes groups) =
      nodesAt key groups ++ nodes.filter fun node => node.responseKey = key := by
  induction nodes generalizing groups with
  | nil => simp
  | cons node rest ih =>
    rw [addAll_cons, ih, nodesAt_add, List.append_assoc]
    by_cases hk : node.responseKey = key <;> simp [hk]

theorem nodup_addAll (nodes : List FieldNode) (groups : List FieldGroup)
    (h : (groups.map key).Nodup) : ((addAll nodes groups).map key).Nodup := by
  induction nodes generalizing groups with
  | nil => exact h
  | cons node rest ih => exact ih _ (nodup_add h)

theorem nodesAt_of_mem {groups : List FieldGroup} (hn : (groups.map key).Nodup)
    {group : FieldGroup} (hm : group ∈ groups) : nodesAt group.key groups = group.nodes := by
  induction groups with
  | nil => cases hm
  | cons first rest ih =>
    obtain ⟨hfirst, hrest⟩ := List.nodup_cons.mp hn
    rcases List.mem_cons.mp hm with rfl | hm
    · simp [nodesAt]
    · have hne : first.key ≠ group.key := fun he => hfirst (he ▸ List.mem_map_of_mem hm)
      rw [nodesAt, if_neg hne, ih hrest hm]

theorem exists_of_mem_nodesAt {key : String} {groups : List FieldGroup} {node : FieldNode}
    (h : node ∈ nodesAt key groups) : ∃ group ∈ groups, group.key = key := by
  induction groups with
  | nil => cases h
  | cons first rest ih =>
    rw [nodesAt] at h
    split at h
    · next hk => exact ⟨first, List.mem_cons_self, hk⟩
    · obtain ⟨group, hm, hk⟩ := ih h
      exact ⟨group, List.mem_cons_of_mem _ hm, hk⟩

/-- The nodes of a group are those of its key. -/
theorem nodes_of_mem {nodes : List FieldNode} {group : FieldGroup} (hm : group ∈ addAll nodes []) :
    group.nodes = nodes.filter fun node => node.responseKey = group.key := by
  rw [← nodesAt_of_mem (nodup_addAll nodes [] List.nodup_nil) hm, nodesAt_addAll]
  rfl

/-- A group takes its name and its arguments from the first node of its key. -/
theorem node_of_mem {nodes : List FieldNode} {group : FieldGroup} (hm : group ∈ addAll nodes []) :
    nodes.find? (fun node => node.responseKey = group.key) = some group.node := by
  rw [← List.head?_filter, ← nodes_of_mem hm]
  rfl

/-- The first node of a key has a group of its own. -/
theorem exists_group {nodes : List FieldNode} {key : String} {node : FieldNode}
    (h : nodes.find? (fun node => node.responseKey = key) = some node) :
    ∃ group ∈ addAll nodes [], group.key = key ∧ group.node = node := by
  have hkey : node.responseKey = key := by simpa using List.find?_some h
  have hat : node ∈ nodesAt key (addAll nodes []) := by
    rw [nodesAt_addAll]
    simpa [nodesAt, hkey] using List.mem_of_find?_eq_some h
  obtain ⟨group, hm, hgroup⟩ := exists_of_mem_nodesAt hat
  refine ⟨group, hm, hgroup, ?_⟩
  have hnode := node_of_mem hm
  rw [hgroup, h] at hnode
  exact (Option.some.inj hnode).symm

end FieldGroup

namespace Gathering

open FieldGroup

/-- Field nodes that have been met, and the fragments that have been followed by then. -/
abbrev Flattened := Except Fault (List FieldNode × List String)

/-- The nodes that have been met before come first. -/
def Flattened.behind (nodes : List FieldNode) (flattened : Flattened) : Flattened :=
  flattened.map fun reached => (nodes ++ reached.1, reached.2)

/-- The nodes of what comes next are met with the fragments that have been followed by now. -/
def Flattened.next (flattened : Flattened) (rest : List String → Flattened) : Flattened :=
  flattened.bind fun reached => (rest reached.2).behind reached.1

section Flatten

variable (schema : Schema) (document : Document) (context : Context) (runtimeType : TypeDef)

/-- The field nodes of the selections, in the order in which gathering meets them. -/
def flatten (visited : List String) : List Selection → Flattened
  | [] => .ok ([], visited)
  | .field node :: rest =>
    if shouldInclude schema context.bindings node.directives then
      (flatten visited rest).behind [node]
    else flatten visited rest
  | .inline condition directives selections :: rest =>
    if shouldInclude schema context.bindings directives then
      match appliesIfAny schema context condition runtimeType with
      | .error fault => .error fault
      | .ok true => flatten visited (selections ++ rest)
      | .ok false => flatten visited rest
    else flatten visited rest
  | .spread name directives :: rest =>
    match _found : document.fragment? name with
    | none => .error (.unknownFragment name)
    | some fragment =>
      if _fresh : visited.contains name then flatten visited rest
      else if shouldInclude schema context.bindings directives then
        match applies schema context fragment.condition runtimeType with
        | .error fault => .error fault
        | .ok true => flatten (name :: visited) (fragment.selections ++ rest)
        | .ok false => flatten (name :: visited) rest
      else flatten visited rest
termination_by work => ((unvisited document visited).length, Selection.weights work)
decreasing_by
  · exact Prod.Lex.right _ (weights_lt_cons _ _)
  · exact Prod.Lex.right _ (weights_lt_cons _ _)
  · exact Prod.Lex.right _ (weights_append_lt _ (weights_lt_inline _ _ _))
  · exact Prod.Lex.right _ (weights_lt_cons _ _)
  · exact Prod.Lex.right _ (weights_lt_cons _ _)
  · exact Prod.Lex.right _ (weights_lt_cons _ _)
  · exact Prod.Lex.left _ _ (unvisited_length_lt document _found (Bool.not_eq_true _ ▸ _fresh))
  · exact Prod.Lex.left _ _ (unvisited_length_lt document _found (Bool.not_eq_true _ ▸ _fresh))
  · exact Prod.Lex.right _ (weights_lt_cons _ _)

end Flatten

variable {schema : Schema} {document : Document} {context : Context} {runtimeType : TypeDef}

theorem flatten_field {visited : List String} {node : FieldNode} {rest : List Selection}
    (hi : shouldInclude schema context.bindings node.directives = true) :
    flatten schema document context runtimeType visited (.field node :: rest) =
      (flatten schema document context runtimeType visited rest).behind [node] := by
  rw [flatten, if_pos hi]

theorem flatten_unknown {visited : List String} {name : String} {directives : List Directive}
    {rest : List Selection} (hf : document.fragment? name = none) :
    flatten schema document context runtimeType visited (.spread name directives :: rest) =
      .error (.unknownFragment name) := by
  rw [flatten]
  split
  · rfl
  · next he => rw [hf] at he; cases he

theorem flatten_spread {visited : List String} {name : String} {directives : List Directive}
    {rest : List Selection} {fragment : FragmentDef} (hf : document.fragment? name = some fragment) :
    flatten schema document context runtimeType visited (.spread name directives :: rest) =
      if visited.contains name then flatten schema document context runtimeType visited rest
      else if shouldInclude schema context.bindings directives then
        match applies schema context fragment.condition runtimeType with
        | .error fault => .error fault
        | .ok true =>
          flatten schema document context runtimeType (name :: visited) (fragment.selections ++ rest)
        | .ok false => flatten schema document context runtimeType (name :: visited) rest
      else flatten schema document context runtimeType visited rest := by
  rw [flatten]
  split
  · next he => rw [hf] at he; cases he
  · next found he =>
    obtain rfl : fragment = found := Option.some.inj (hf.symm.trans he)
    rfl

namespace Flattened

theorem behind_nil (flattened : Flattened) : flattened.behind [] = flattened := by
  cases flattened <;> rfl

theorem behind_behind (first second : List FieldNode) (flattened : Flattened) :
    (flattened.behind second).behind first = flattened.behind (first ++ second) := by
  cases flattened with
  | error raised => rfl
  | ok reached => simp [behind, Except.map]

theorem behind_next (nodes : List FieldNode) (flattened : Flattened)
    (rest : List String → Flattened) :
    (flattened.behind nodes).next rest = (flattened.next rest).behind nodes := by
  cases flattened with
  | error raised => rfl
  | ok reached => exact (behind_behind nodes reached.1 _).symm

end Flattened

/-- Gathering flattens the selections and groups their nodes. -/
theorem gather_eq_flatten (visited : List String) (groups : List FieldGroup)
    (work : List Selection) :
    gather schema document context runtimeType visited groups work =
      (flatten schema document context runtimeType visited work).map fun reached =>
        addAll reached.1 groups := by
  have hbehind : ∀ (node : FieldNode) (groups : List FieldGroup) (flattened : Flattened),
      (flattened.behind [node]).map (fun reached => addAll reached.1 groups) =
        flattened.map fun reached => addAll reached.1 (FieldGroup.add node groups) := by
    intro node groups flattened
    cases flattened <;> rfl
  induction visited, groups, work using gather.induct schema document context runtimeType with
  | case1 visited groups =>
    rw [gather, flatten]
    rfl
  | case2 visited groups node rest hi ih => rw [gather, if_pos hi, flatten, if_pos hi, hbehind, ih]
  | case3 visited groups node rest hi ih => rw [gather, if_neg hi, flatten, if_neg hi, ih]
  | case4 visited groups condition directives selections rest hi fault ha =>
    rw [gather, if_pos hi, ha, flatten, if_pos hi, ha]
    rfl
  | case5 visited groups condition directives selections rest hi ha ih =>
    rw [gather, if_pos hi, ha, flatten, if_pos hi, ha]
    exact ih
  | case6 visited groups condition directives selections rest hi ha ih =>
    rw [gather, if_pos hi, ha, flatten, if_pos hi, ha]
    exact ih
  | case7 visited groups condition directives selections rest hi ih =>
    rw [gather, if_neg hi, flatten, if_neg hi, ih]
  | case8 visited groups name directives rest hf =>
    rw [gather_unknown hf, flatten_unknown hf]
    rfl
  | case9 visited groups name directives rest fragment hf hv ih =>
    rw [gather_spread hf, flatten_spread hf, if_pos hv, if_pos hv, ih]
  | case10 visited groups name directives rest fragment hf hv hi fault ha =>
    rw [gather_spread hf, flatten_spread hf, if_neg hv, if_neg hv, if_pos hi, if_pos hi, ha]
    rfl
  | case11 visited groups name directives rest fragment hf hv hi ha ih =>
    rw [gather_spread hf, flatten_spread hf, if_neg hv, if_neg hv, if_pos hi, if_pos hi, ha]
    exact ih
  | case12 visited groups name directives rest fragment hf hv hi ha ih =>
    rw [gather_spread hf, flatten_spread hf, if_neg hv, if_neg hv, if_pos hi, if_pos hi, ha]
    exact ih
  | case13 visited groups name directives rest fragment hf hv hi ih =>
    rw [gather_spread hf, flatten_spread hf, if_neg hv, if_neg hv, if_neg hi, if_neg hi, ih]

/-- Flattening goes on where it has come to. -/
theorem flatten_append (visited : List String) (work rest : List Selection) :
    flatten schema document context runtimeType visited (work ++ rest) =
      (flatten schema document context runtimeType visited work).next fun visited =>
        flatten schema document context runtimeType visited rest := by
  induction visited, work using flatten.induct schema document context runtimeType with
  | case1 visited =>
    rw [List.nil_append, flatten.eq_def _ _ _ _ visited []]
    exact (Flattened.behind_nil _).symm
  | case2 visited node tail hi ih =>
    rw [List.cons_append, flatten, flatten, if_pos hi, if_pos hi, ih, Flattened.behind_next]
  | case3 visited node tail hi ih =>
    rw [List.cons_append, flatten, flatten, if_neg hi, if_neg hi, ih]
  | case4 visited condition directives selections tail hi fault ha =>
    rw [List.cons_append, flatten, flatten, if_pos hi, if_pos hi, ha]
    rfl
  | case5 visited condition directives selections tail hi ha ih =>
    rw [List.cons_append, flatten, flatten, if_pos hi, if_pos hi, ha, ← List.append_assoc]
    exact ih
  | case6 visited condition directives selections tail hi ha ih =>
    rw [List.cons_append, flatten, flatten, if_pos hi, if_pos hi, ha]
    exact ih
  | case7 visited condition directives selections tail hi ih =>
    rw [List.cons_append, flatten, flatten, if_neg hi, if_neg hi, ih]
  | case8 visited name directives tail hf =>
    rw [List.cons_append, flatten_unknown hf, flatten_unknown hf]
    rfl
  | case9 visited name directives tail fragment hf hv ih =>
    rw [List.cons_append, flatten_spread hf, flatten_spread hf, if_pos hv, if_pos hv, ih]
  | case10 visited name directives tail fragment hf hv hi fault ha =>
    rw [List.cons_append, flatten_spread hf, flatten_spread hf, if_neg hv, if_neg hv, if_pos hi,
      if_pos hi, ha]
    rfl
  | case11 visited name directives tail fragment hf hv hi ha ih =>
    rw [List.cons_append, flatten_spread hf, flatten_spread hf, if_neg hv, if_neg hv, if_pos hi,
      if_pos hi, ha, ← List.append_assoc]
    exact ih
  | case12 visited name directives tail fragment hf hv hi ha ih =>
    rw [List.cons_append, flatten_spread hf, flatten_spread hf, if_neg hv, if_neg hv, if_pos hi,
      if_pos hi, ha]
    exact ih
  | case13 visited name directives tail fragment hf hv hi ih =>
    rw [List.cons_append, flatten_spread hf, flatten_spread hf, if_neg hv, if_neg hv, if_neg hi,
      if_neg hi, ih]

/-- The groups of an object are those of the nodes of its selections. -/
theorem collect_eq_flatten (selections : List Selection) :
    collect schema document context runtimeType selections =
      (flatten schema document context runtimeType [] selections).map fun reached =>
        addAll reached.1 [] :=
  gather_eq_flatten [] [] selections

end Gathering

end GraphQL
