import GraphQL.Proofs.Echoes
import GraphQL.Proofs.Inlining
import Mathlib.Data.List.Forall2

/-!
# Gathering with and without repetition

Gathering follows a named fragment once; a compiled request repeats its fields wherever it was
spread. What a spread brings that has been followed before are echoes: fields that stand before. So
the groups of the compiled request have the same keys, the same first nodes and, among the
sub-selections, echoes again, and the fault is the same if there is one.
-/

namespace GraphQL

namespace FieldGroup

/-- The group with its nodes replaced. -/
def mapNodes (f : FieldNode → FieldNode) (group : FieldGroup) : FieldGroup where
  key := group.key
  node := f group.node
  others := group.others.map f

theorem nodes_mapNodes (f : FieldNode → FieldNode) (group : FieldGroup) :
    (group.mapNodes f).nodes = group.nodes.map f := rfl

theorem add_map {f : FieldNode → FieldNode} (hf : ∀ node, (f node).responseKey = node.responseKey)
    (node : FieldNode) (groups : List FieldGroup) :
    add (f node) (groups.map (mapNodes f)) = (add node groups).map (mapNodes f) := by
  induction groups with
  | nil => simp [add, hf, mapNodes]
  | cons group rest ih =>
    by_cases h : group.key = node.responseKey
    · simp [add, mapNodes, hf, h]
    · simpa [add, mapNodes, hf, h] using ih

/-- Adds nodes to the groups of their response keys, from the first to the last. -/
def addAll (nodes : List FieldNode) (groups : List FieldGroup) : List FieldGroup :=
  nodes.foldl (fun groups node => add node groups) groups

@[simp] theorem addAll_nil (groups : List FieldGroup) : addAll [] groups = groups := rfl
@[simp] theorem addAll_cons (node : FieldNode) (nodes : List FieldNode) (groups : List FieldGroup) :
    addAll (node :: nodes) groups = addAll nodes (add node groups) := rfl

theorem addAll_append (xs ys : List FieldNode) (groups : List FieldGroup) :
    addAll (xs ++ ys) groups = addAll ys (addAll xs groups) := List.foldl_append ..

theorem addAll_map {f : FieldNode → FieldNode}
    (hf : ∀ node, (f node).responseKey = node.responseKey)
    (nodes : List FieldNode) (groups : List FieldGroup) :
    addAll (nodes.map f) (groups.map (mapNodes f)) = (addAll nodes groups).map (mapNodes f) := by
  induction nodes generalizing groups with
  | nil => rfl
  | cons node rest ih => rw [List.map_cons, addAll_cons, addAll_cons, add_map hf, ih]

/-- The nodes that have been gathered under a response key. -/
def nodesAt (key : String) : List FieldGroup → List FieldNode
  | [] => []
  | group :: rest => if group.key = key then group.nodes else nodesAt key rest

theorem mem_nodesAt_add (node : FieldNode) (groups : List FieldGroup) :
    node ∈ nodesAt node.responseKey (add node groups) := by
  induction groups with
  | nil => simp [add, nodesAt, nodes]
  | cons group rest ih =>
    by_cases h : group.key = node.responseKey
    · simp [add, h, nodesAt, nodes]
    · simpa [add, h, nodesAt] using ih

theorem nodesAt_subset_add (key : String) (node : FieldNode) (groups : List FieldGroup) :
    nodesAt key groups ⊆ nodesAt key (add node groups) := by
  induction groups with
  | nil => exact List.nil_subset _
  | cons group rest ih =>
    by_cases h : group.key = node.responseKey
    · simp only [add, h, if_true, nodesAt]
      split
      · exact List.subset_append_left group.nodes [node]
      · exact List.Subset.refl _
    · simp only [add, h, if_false, nodesAt]
      split
      · exact List.Subset.refl _
      · exact ih

/-- The same group but for echoes. -/
structure Repeats (group other : FieldGroup) : Prop where
  key : other.key = group.key
  node : other.node = group.node
  nodes : Echoes [] group.nodes other.nodes

variable {groups others : List FieldGroup}

theorem repeats_add (node : FieldNode) (h : List.Forall₂ Repeats groups others) :
    List.Forall₂ Repeats (add node groups) (add node others) := by
  induction h with
  | nil => exact .cons ⟨rfl, rfl, .refl _ _⟩ .nil
  | @cons group other rest others hg hrest ih =>
    simp only [add, hg.key]
    split
    · have hnodes : Echoes [] (group.nodes ++ [node]) (other.nodes ++ [node]) :=
        hg.nodes.append (.refl _ _)
      exact .cons ⟨rfl, hg.node, hnodes⟩ hrest
    · exact .cons hg ih

/-- A node that has been gathered before changes nothing but echoes. -/
theorem repeats_echo {node : FieldNode} (hm : node ∈ nodesAt node.responseKey groups)
    (h : List.Forall₂ Repeats groups others) : List.Forall₂ Repeats groups (add node others) := by
  induction h with
  | nil => cases hm
  | @cons group other rest others hg hrest ih =>
    simp only [nodesAt] at hm
    simp only [add, hg.key]
    split
    · next hkey =>
      rw [if_pos hkey] at hm
      exact .cons ⟨rfl, hg.node, hg.nodes.concat (by simpa using hm)⟩ hrest
    · next hkey =>
      rw [if_neg hkey] at hm
      exact .cons hg (ih hm)

/-- Echoes among the nodes change nothing but echoes in the groups. -/
theorem repeats_addAll {seen nodes repeated : List FieldNode} (h : Echoes seen nodes repeated)
    (hs : ∀ node ∈ seen, node ∈ nodesAt node.responseKey groups)
    (hg : List.Forall₂ Repeats groups others) :
    List.Forall₂ Repeats (addAll nodes groups) (addAll repeated others) := by
  induction h generalizing groups others with
  | nil => exact hg
  | keep node _ ih =>
    refine ih (fun other ho => ?_) (repeats_add node hg)
    rcases List.mem_append.mp ho with ho | ho
    · exact nodesAt_subset_add _ _ _ (hs other ho)
    · obtain rfl := List.mem_singleton.mp ho
      exact mem_nodesAt_add other groups
  | echo hm _ ih => exact ih hs (repeats_echo (hs _ hm) hg)

/-- Nodes that are images with echoes have groups that are images of groups with echoes. -/
theorem repeats_of_map {f : FieldNode → FieldNode}
    (hf : ∀ node, (f node).responseKey = node.responseKey) {own repeated : List FieldNode}
    (h : Echoes [] (own.map f) repeated) :
    ∃ others, List.Forall₂ Repeats (addAll own []) others ∧
      addAll repeated [] = others.map (mapNodes f) := by
  have hmap : Echoes ([].map f) (own.map f) repeated := h
  obtain ⟨nodes, rfl, hnodes⟩ := hmap.of_map
  have hgroups : List.Forall₂ Repeats (addAll own []) (addAll nodes []) :=
    repeats_addAll hnodes (fun _ hm => absurd hm List.not_mem_nil) .nil
  exact ⟨_, hgroups, addAll_map hf nodes []⟩

end FieldGroup

/-- The fragment is spread in the selection or in a fragment to which the selection leads. -/
def Document.Reaches (document : Document) (selection : Selection) (name : String) : Prop :=
  ∃ first, selection.Mentions first ∧ Relation.ReflTransGen document.Spreads first name

namespace Gathering

open FieldGroup

section Expand

variable (schema : Schema) (context : Context) (runtimeType : TypeDef)

mutual

/-- The field nodes of a selection without named fragments. -/
def expandOne : Selection → Except Fault (List FieldNode)
  | .field node =>
    .ok (if shouldInclude schema context.bindings node.directives then [node] else [])
  | .inline condition directives selections =>
    if shouldInclude schema context.bindings directives then
      match appliesIfAny schema context condition runtimeType with
      | .error fault => .error fault
      | .ok true => expand selections
      | .ok false => .ok []
    else .ok []
  | .spread name _ => .error (.unknownFragment name)

/-- The field nodes of selections without named fragments, one after another. -/
def expand : List Selection → Except Fault (List FieldNode)
  | [] => .ok []
  | selection :: rest =>
    (expandOne selection).bind fun nodes => (expand rest).map (nodes ++ ·)

end

theorem expand_append (xs ys : List Selection) :
    expand schema context runtimeType (xs ++ ys) =
      (expand schema context runtimeType xs).bind fun nodes =>
        (expand schema context runtimeType ys).map (nodes ++ ·) := by
  induction xs with
  | nil =>
    rw [List.nil_append, expand]
    cases expand schema context runtimeType ys <;> rfl
  | cons x xs ih =>
    rw [List.cons_append, expand, expand, ih]
    cases expandOne schema context runtimeType x with
    | error raised => rfl
    | ok nodes =>
      cases expand schema context runtimeType xs with
      | error raised => rfl
      | ok others =>
        cases expand schema context runtimeType ys with
        | error raised => rfl
        | ok more => simp [Except.bind, Except.map]

theorem expand_singleton (selection : Selection) :
    expand schema context runtimeType [selection] =
      expandOne schema context runtimeType selection := by
  rw [expand, expand]
  cases expandOne schema context runtimeType selection with
  | error raised => rfl
  | ok nodes => simp [Except.bind, Except.map]

end Expand

variable {schema : Schema} {context : Context} {runtimeType : TypeDef}

/-- Without named fragments, gathering is adding the nodes of the selections. -/
theorem gather_expand {document : Document} (h : document.fragments = []) (visited : List String)
    (groups : List FieldGroup) (work : List Selection) :
    gather schema document context runtimeType visited groups work =
      (expand schema context runtimeType work).map (addAll · groups) := by
  have hnone : ∀ name, document.fragment? name = none := by
    intro name
    simp [Document.fragment?, h, Named.find?]
  induction visited, groups, work using gather.induct schema document context runtimeType with
  | case1 visited groups => rw [gather, expand]; rfl
  | case2 visited groups node rest hi ih =>
    rw [gather, if_pos hi, ih, expand, expandOne, if_pos hi]
    cases expand schema context runtimeType rest <;> rfl
  | case3 visited groups node rest hi ih =>
    rw [gather, if_neg hi, ih, expand, expandOne, if_neg hi]
    cases expand schema context runtimeType rest <;> rfl
  | case4 visited groups condition directives selections rest hi fault ha =>
    rw [gather, if_pos hi, ha, expand, expandOne, if_pos hi, ha]
    rfl
  | case5 visited groups condition directives selections rest hi ha ih =>
    rw [gather, if_pos hi, ha, expand, expandOne, if_pos hi, ha]
    rw [expand_append] at ih
    exact ih
  | case6 visited groups condition directives selections rest hi ha ih =>
    rw [gather, if_pos hi, ha, expand, expandOne, if_pos hi, ha]
    dsimp only
    rw [ih]
    cases expand schema context runtimeType rest <;> rfl
  | case7 visited groups condition directives selections rest hi ih =>
    rw [gather, if_neg hi, ih, expand, expandOne, if_neg hi]
    cases expand schema context runtimeType rest <;> rfl
  | case8 visited groups name directives rest hf =>
    rw [gather_unknown hf, expand, expandOne]
    rfl
  | case9 visited groups name directives rest fragment hf
  | case10 visited groups name directives rest fragment hf
  | case11 visited groups name directives rest fragment hf
  | case12 visited groups name directives rest fragment hf
  | case13 visited groups name directives rest fragment hf =>
    rw [hnone] at hf
    cases hf

/-- The nodes that a compiled request brings for selections of the document. -/
def expansion (document : Document) (schema : Schema) (context : Context) (runtimeType : TypeDef)
    (selections : List Selection) : Except Fault (List FieldNode) :=
  expand schema context runtimeType (document.compiled schema context.bindings selections)

section Expansion

variable {document : Document}

theorem expansion_append (xs ys : List Selection) :
    expansion document schema context runtimeType (xs ++ ys) =
      (expansion document schema context runtimeType xs).bind fun nodes =>
        (expansion document schema context runtimeType ys).map (nodes ++ ·) := by
  rw [expansion, Document.compiled_append, expand_append]
  rfl

theorem expansion_cons (selection : Selection) (rest : List Selection) :
    expansion document schema context runtimeType (selection :: rest) =
      (expansion document schema context runtimeType [selection]).bind fun nodes =>
        (expansion document schema context runtimeType rest).map (nodes ++ ·) :=
  expansion_append [selection] rest

theorem expansion_field (node : FieldNode) :
    expansion document schema context runtimeType [.field node] =
      .ok (if shouldInclude schema context.bindings node.directives then
        [document.compiledNode schema context.bindings node] else []) := by
  rw [expansion, Document.compiled_field]
  split
  · rw [expand_singleton, expandOne]
    rfl
  · rw [expand]

theorem expansion_inline (condition : Option String) (directives : List Directive)
    (selections : List Selection) :
    expansion document schema context runtimeType [.inline condition directives selections] =
      if shouldInclude schema context.bindings directives then
        match appliesIfAny schema context condition runtimeType with
        | .error fault => .error fault
        | .ok true => expansion document schema context runtimeType selections
        | .ok false => .ok []
      else .ok [] := by
  rw [expansion, Document.compiled_inline]
  split
  · rw [expand_singleton, expandOne]
    rfl
  · rw [expand]

theorem expansion_spread (ha : document.Acyclic) {name : String} {fragment : FragmentDef}
    (hf : document.fragment? name = some fragment) (directives : List Directive) :
    expansion document schema context runtimeType [.spread name directives] =
      if shouldInclude schema context.bindings directives then
        match applies schema context fragment.condition runtimeType with
        | .error fault => .error fault
        | .ok true => expansion document schema context runtimeType fragment.selections
        | .ok false => .ok []
      else .ok [] := by
  rw [expansion, ha.compiled_spread _ _ hf]
  exact expansion_inline _ _ _

/-- Echoes among selections bring echoes among their nodes, and no other fault. -/
theorem expansion_echoes {seen selections repeated : List Selection} {nodes : List FieldNode}
    (h : Echoes seen selections repeated)
    (hs : ∀ selection ∈ seen, ∃ own,
      expansion document schema context runtimeType [selection] = .ok own ∧ own ⊆ nodes) :
    Concur (Echoes nodes) (expansion document schema context runtimeType selections)
      (expansion document schema context runtimeType repeated) := by
  induction h generalizing nodes with
  | nil => exact .ok (.nil nodes)
  | @keep seen xs ys x _ ih =>
    rw [expansion_cons x xs, expansion_cons x ys]
    cases hx : expansion document schema context runtimeType [x] with
    | error raised => exact .error raised
    | ok first =>
      have hrest := @ih (nodes ++ first) fun selection hm => by
        rcases List.mem_append.mp hm with hm | hm
        · obtain ⟨own, ho, hown⟩ := hs selection hm
          exact ⟨own, ho, List.Subset.trans hown (List.subset_append_left _ _)⟩
        · obtain rfl := List.mem_singleton.mp hm
          exact ⟨first, hx, List.subset_append_right _ _⟩
      generalize expansion document schema context runtimeType xs = own at hrest
      generalize expansion document schema context runtimeType ys = others at hrest
      cases hrest with
      | error raised => exact .error raised
      | ok he => exact .ok ((Echoes.refl nodes first).append he)
  | @echo seen xs ys x hx _ ih =>
    obtain ⟨first, hfirst, hown⟩ := hs x hx
    have hrest := ih hs
    rw [expansion_cons x ys, hfirst]
    generalize expansion document schema context runtimeType xs = own at hrest
    generalize expansion document schema context runtimeType ys = others at hrest
    cases hrest with
    | error raised => exact .error raised
    | ok he => exact .ok ((Echoes.of_subset hown).append (by rwa [List.append_nil]))

/-- The fragment of a name brings nothing that has not been seen. -/
def Followed (document : Document) (schema : Schema) (context : Context) (runtimeType : TypeDef)
    (seen : List FieldNode) (name : String) : Prop :=
  ∃ nodes, expansion document schema context runtimeType [.spread name []] = .ok nodes ∧
    nodes ⊆ seen

/-- How gathering goes on from selections: it fails as their expansion does, or adds the nodes of
the expansion but for echoes. The fragments that are followed meanwhile bring nothing new from then
on. -/
def Gathers (document : Document) (schema : Schema) (context : Context) (runtimeType : TypeDef)
    (seen : List FieldNode) (visited : List String) (selections : List Selection) : Prop :=
  match expansion document schema context runtimeType selections with
  | .error raised => ∀ groups rest,
    gather schema document context runtimeType visited groups (selections ++ rest) = .error raised
  | .ok nodes => ∃ (later : List String) (own : List FieldNode),
    (∀ groups rest,
      gather schema document context runtimeType visited groups (selections ++ rest) =
        gather schema document context runtimeType later (addAll own groups) rest) ∧
    Echoes seen (own.map (document.compiledNode schema context.bindings)) nodes ∧
    ∀ name ∈ later, name ∈ visited ∨
      Followed document schema context runtimeType (seen ++ nodes) name

theorem Followed.mono {seen more : List FieldNode} {name : String}
    (h : Followed document schema context runtimeType seen name) (hs : seen ⊆ more) :
    Followed document schema context runtimeType more name := by
  obtain ⟨nodes, he, hn⟩ := h
  exact ⟨nodes, he, List.Subset.trans hn hs⟩

/-- Gathering from selections, by what it does for each of them. -/
theorem gathers_all {selections : List Selection} {seen : List FieldNode} {visited : List String}
    (hv : ∀ name ∈ visited, ∀ selection ∈ selections, document.Reaches selection name →
      Followed document schema context runtimeType seen name)
    (each : ∀ selection ∈ selections, ∀ seen visited,
      (∀ name ∈ visited, document.Reaches selection name →
        Followed document schema context runtimeType seen name) →
      Gathers document schema context runtimeType seen visited [selection]) :
    Gathers document schema context runtimeType seen visited selections := by
  induction selections generalizing seen visited with
  | nil => exact ⟨visited, [], fun _ _ => rfl, .nil seen, fun name hn => .inl hn⟩
  | cons selection rest ih =>
    have hfirst := each selection List.mem_cons_self seen visited fun name hn hr =>
      hv name hn selection List.mem_cons_self hr
    unfold Gathers at hfirst ⊢
    rw [expansion_cons]
    cases hx : expansion document schema context runtimeType [selection] with
    | error raised =>
      rw [hx] at hfirst
      exact fun groups more => hfirst groups (rest ++ more)
    | ok nodes =>
      rw [hx] at hfirst
      obtain ⟨later, own, hgather, hechoes, hlater⟩ := hfirst
      have hrest := @ih (seen ++ nodes) later (fun name hn inner hi hr => by
        rcases hlater name hn with hn | hn
        · exact (hv name hn inner (List.mem_cons_of_mem _ hi) hr).mono (List.subset_append_left _ _)
        · exact hn) fun inner hi => each inner (List.mem_cons_of_mem _ hi)
      unfold Gathers at hrest
      cases hxs : expansion document schema context runtimeType rest with
      | error raised =>
        rw [hxs] at hrest
        exact fun groups more => (hgather groups (rest ++ more)).trans (hrest _ more)
      | ok others =>
        rw [hxs] at hrest
        obtain ⟨last, own', hgather', hechoes', hlast⟩ := hrest
        refine ⟨last, own ++ own', fun groups more => ?_, ?_, fun name hn => ?_⟩
        · rw [addAll_append]
          exact (hgather groups (rest ++ more)).trans (hgather' _ more)
        · rw [List.map_append]
          exact hechoes.append (hechoes'.mono
            (List.append_subset.mpr ⟨List.subset_append_left _ _, hechoes.subset⟩))
        · rw [← List.append_assoc]
          rcases hlast name hn with hn | hn
          · exact (hlater name hn).imp id fun hf => hf.mono (List.subset_append_left _ _)
          · exact .inr hn

theorem gathers_excluded {selection : Selection} {seen : List FieldNode} {visited : List String}
    (he : expansion document schema context runtimeType [selection] = .ok [])
    (hg : ∀ groups rest, gather schema document context runtimeType visited groups
      (selection :: rest) = gather schema document context runtimeType visited groups rest) :
    Gathers document schema context runtimeType seen visited [selection] := by
  unfold Gathers
  rw [he]
  exact ⟨visited, [], hg, .nil seen, fun name hn => .inl hn⟩

theorem gathers_field (node : FieldNode) (seen : List FieldNode) (visited : List String) :
    Gathers document schema context runtimeType seen visited [.field node] := by
  cases hi : shouldInclude schema context.bindings node.directives with
  | true =>
    unfold Gathers
    rw [expansion_field, if_pos hi]
    refine ⟨visited, [node], fun groups rest => ?_, .refl _ _, fun name hn => .inl hn⟩
    rw [List.singleton_append, gather, if_pos hi]
    rfl
  | false =>
    refine gathers_excluded ?_ fun groups rest => ?_
    · rw [expansion_field, if_neg (by simp [hi])]
    · rw [gather, if_neg (by simp [hi])]

theorem gathers_inline {condition : Option String} {directives : List Directive}
    {selections : List Selection} {seen : List FieldNode} {visited : List String}
    (h : Gathers document schema context runtimeType seen visited selections) :
    Gathers document schema context runtimeType seen visited
      [.inline condition directives selections] := by
  cases hi : shouldInclude schema context.bindings directives with
  | false =>
    refine gathers_excluded ?_ fun groups rest => ?_
    · rw [expansion_inline, if_neg (by simp [hi])]
    · rw [gather, if_neg (by simp [hi])]
  | true =>
    cases ha : appliesIfAny schema context condition runtimeType with
    | error raised =>
      unfold Gathers
      rw [expansion_inline, if_pos hi, ha]
      intro groups rest
      rw [List.singleton_append, gather, if_pos hi, ha]
    | ok applies =>
      cases applies with
      | false =>
        refine gathers_excluded ?_ fun groups rest => ?_
        · rw [expansion_inline, if_pos hi, ha]
        · rw [gather, if_pos hi, ha]
      | true =>
        unfold Gathers at h ⊢
        rw [expansion_inline, if_pos hi, ha]
        simp only [List.singleton_append, gather, hi, if_true, ha]
        exact h

section Spread

variable (hacyclic : document.Acyclic) {name : String} {fragment : FragmentDef}
  (hf : document.fragment? name = some fragment) {directives : List Directive}
  {seen : List FieldNode} {visited : List String}

include hacyclic hf

/-- A fragment that has been followed: what it would bring are echoes. -/
theorem gathers_followed (hv : visited.contains name = true)
    (h : Followed document schema context runtimeType seen name) :
    Gathers document schema context runtimeType seen visited [.spread name directives] := by
  obtain ⟨nodes, hexpansion, hnodes⟩ := h
  rw [expansion_spread hacyclic hf, if_pos (by rfl)] at hexpansion
  have hgather : ∀ groups rest, gather schema document context runtimeType visited groups
      (.spread name directives :: rest) =
        gather schema document context runtimeType visited groups rest := fun groups rest => by
    rw [gather_spread hf, if_pos hv]
  cases hi : shouldInclude schema context.bindings directives with
  | false =>
    refine gathers_excluded ?_ hgather
    rw [expansion_spread hacyclic hf, if_neg (by simp [hi])]
  | true =>
    unfold Gathers
    rw [expansion_spread hacyclic hf, if_pos hi, hexpansion]
    exact ⟨visited, [], hgather, .of_subset hnodes, fun name hn => .inl hn⟩

/-- A fragment that has not been followed brings its selections. -/
theorem gathers_fresh (hv : visited.contains name = false)
    (h : Gathers document schema context runtimeType seen (name :: visited) fragment.selections) :
    Gathers document schema context runtimeType seen visited [.spread name directives] := by
  have hgather : ∀ groups rest, gather schema document context runtimeType visited groups
      (.spread name directives :: rest) = _ := fun groups rest => by
    rw [gather_spread hf, if_neg (by rw [hv]; exact Bool.false_ne_true)]
  have hbody : expansion document schema context runtimeType [.spread name []] = _ :=
    expansion_spread hacyclic hf []
  rw [if_pos (by rfl)] at hbody
  cases hi : shouldInclude schema context.bindings directives with
  | false =>
    refine gathers_excluded ?_ fun groups rest => ?_
    · rw [expansion_spread hacyclic hf, if_neg (by simp [hi])]
    · rw [hgather, if_neg (by simp [hi])]
  | true =>
    unfold Gathers at h ⊢
    rw [expansion_spread hacyclic hf, if_pos hi]
    simp only [List.singleton_append, hgather, hi, if_true]
    cases ha : applies schema context fragment.condition runtimeType with
    | error raised => exact fun _ _ => rfl
    | ok applies =>
      rw [ha] at hbody
      cases applies with
      | false =>
        refine ⟨name :: visited, [], fun _ _ => rfl, .nil seen, fun other ho => ?_⟩
        rcases List.mem_cons.mp ho with rfl | ho
        · exact .inr ⟨[], hbody, List.nil_subset _⟩
        · exact .inl ho
      | true =>
        cases hexpansion : expansion document schema context runtimeType fragment.selections with
        | error raised =>
          rw [hexpansion] at h
          exact h
        | ok nodes =>
          rw [hexpansion] at h hbody
          obtain ⟨later, own, hgather, hechoes, hlater⟩ := h
          refine ⟨later, own, hgather, hechoes, fun other ho => ?_⟩
          rcases hlater other ho with ho | ho
          · rcases List.mem_cons.mp ho with rfl | ho
            · exact .inr ⟨nodes, hbody, List.subset_append_right _ _⟩
            · exact .inl ho
          · exact .inr ho

end Spread

/-- **A fragment that is followed once is as good as one that is followed each time**: what is left
out was seen before. -/
theorem gathers (ha : document.Acyclic) (hc : document.Closed) (selection : Selection)
    (hd : document.Defines selection) (seen : List FieldNode) (visited : List String)
    (hv : ∀ name ∈ visited, document.Reaches selection name →
      Followed document schema context runtimeType seen name) :
    Gathers document schema context runtimeType seen visited [selection] := by
  induction selection using ha.induction generalizing seen visited with
  | field node => exact gathers_field node seen visited
  | inline condition directives selections ih =>
    refine gathers_inline (gathers_all (fun name hn inner hm hr => ?_)
      fun inner hm seen visited hv => ?_)
    · obtain ⟨first, hfirst, hsteps⟩ := hr
      exact hv name hn ⟨first, .inline hm hfirst, hsteps⟩
    · exact ih inner hm (fun name hn => hd name (.inline hm hn)) seen visited hv
  | spread name directives ih =>
    obtain ⟨fragment, hfragment⟩ := hd name (.spread directives)
    cases hvisited : visited.contains name with
    | true =>
      have hfollowed := hv name (by simpa using hvisited) ⟨name, .spread directives, .refl⟩
      exact gathers_followed ha hfragment hvisited hfollowed
    | false =>
      have hinside : ∀ inner ∈ fragment.selections, ∀ other, document.Reaches inner other →
          Relation.TransGen document.Spreads name other := by
        intro inner hm other ⟨first, hfirst, hsteps⟩
        exact .head' ⟨fragment, hfragment, inner, hm, hfirst⟩ hsteps
      -- the fragment does not lead back to itself, so what is inside may take it for followed
      refine gathers_fresh ha hfragment hvisited (gathers_all (fun other ho inner hm hr => ?_)
        fun inner hm seen visited hv => ?_)
      · have hleads := hinside inner hm other hr
        rcases List.mem_cons.mp ho with rfl | ho
        · exact absurd hleads (ha other)
        · exact hv other ho ⟨name, .spread directives, hleads.to_reflTransGen⟩
      · have hdefined := hc.defines_fragment hfragment inner hm
        exact ih fragment hfragment inner hm hdefined seen visited hv

/-- The nodes of the groups are defined if the selections are. -/
theorem defines_collect (hc : document.Closed) {selections : List Selection}
    {groups : List FieldGroup} (hd : ∀ selection ∈ selections, document.Defines selection)
    (h : collect schema document context runtimeType selections = .ok groups) :
    ∀ group ∈ groups, ∀ selection ∈ group.selections, document.Defines selection := by
  have hnodes : ∀ group ∈ groups, ∀ node ∈ group.nodes, document.Defines (.field node) := by
    refine gather_preserves
      (P := fun groups => ∀ group ∈ groups, ∀ node ∈ group.nodes, document.Defines (.field node))
      (Q := document.Defines) (fun node groups hq hp group hg other ho => ?_)
      (fun _ _ _ hq inner hi name hn => hq name (.inline hi hn))
      (fun _ _ _ _ hfragment => hc.defines_fragment hfragment) h hd fun _ hm => nomatch hm
    rcases mem_nodes_add hg ho with rfl | ⟨old, hold, hnode⟩
    · exact hq
    · exact hp old hold other hnode
  intro group hg selection hs
  obtain ⟨node, hn, hm⟩ := List.mem_flatMap.mp hs
  exact fun name hmention => hnodes group hg node hn name (.field hm hmention)

end Expansion

end Gathering

namespace Document

/-- `document.Compiles schema bindings selections other`: selections of the document, and what is
selected instead by the compiled request. -/
structure Compiles (document : Document) (schema : Schema) (bindings : Members Json)
    (selections other : List Selection) : Prop where
  defined : ∀ selection ∈ selections, document.Defines selection
  compiled : ∃ repeated, Echoes [] selections repeated ∧
    other = document.compiled schema bindings repeated

/-- A group of the document and the one of the compiled request. -/
structure CompilesGroup (document : Document) (schema : Schema) (bindings : Members Json)
    (group other : FieldGroup) : Prop where
  key : other.key = group.key
  node : other.node = document.compiledNode schema bindings group.node
  selections : document.Compiles schema bindings group.selections other.selections

end Document

namespace Gathering

open FieldGroup

variable {schema : Schema} {context : Context} {runtimeType : TypeDef} {document : Document}

/-- A group with echoes, compiled. -/
theorem compiles_repeats {group other : FieldGroup} {bindings : Members Json}
    (hd : ∀ selection ∈ group.selections, document.Defines selection) (h : group.Repeats other) :
    document.CompilesGroup schema bindings group
      (other.mapNodes (document.compiledNode schema bindings)) where
  key := h.key
  node := congrArg (document.compiledNode schema bindings) h.node
  selections := by
    refine ⟨hd, other.selections, h.nodes.flatMap FieldNodeOf.selections, ?_⟩
    rw [selections, nodes_mapNodes, List.flatMap_map]
    exact (Document.compiled_flatMap schema bindings FieldNodeOf.selections other.nodes).symm

/-- What a document gathers is what the compiled request gathers but for echoes. -/
theorem collect_expansion (ha : document.Acyclic) (hc : document.Closed)
    {selections : List Selection}
    (hd : ∀ selection ∈ selections, document.Defines selection) :
    Concur (fun groups nodes => ∃ own, groups = addAll own [] ∧
        Echoes [] (own.map (document.compiledNode schema context.bindings)) nodes)
      (collect schema document context runtimeType selections)
      (expansion document schema context runtimeType selections) := by
  have hgathers : Gathers document schema context runtimeType [] [] selections :=
    gathers_all (fun _ hn => absurd hn List.not_mem_nil) fun selection hm seen visited hv =>
      gathers ha hc selection (hd selection hm) seen visited hv
  unfold Gathers at hgathers
  cases hexpansion : expansion document schema context runtimeType selections with
  | error raised =>
    rw [hexpansion] at hgathers
    have hwhole := hgathers [] []
    rw [List.append_nil] at hwhole
    rw [collect, hwhole]
    exact .error raised
  | ok nodes =>
    rw [hexpansion] at hgathers
    obtain ⟨later, own, hgather, hown, -⟩ := hgathers
    have hwhole := hgather [] []
    rw [List.append_nil, gather] at hwhole
    rw [collect, hwhole]
    exact .ok ⟨own, rfl, hown⟩

/-- **Gathering from the compiled selections** ends in the same fault, or in the same keys with the
same first nodes. -/
theorem collect_compiles (ha : document.Acyclic) (hc : document.Closed) {other : Document}
    (ho : other.fragments = []) {selections compiled : List Selection}
    (h : document.Compiles schema context.bindings selections compiled) :
    Concur (List.Forall₂ (document.CompilesGroup schema context.bindings))
      (collect schema document context runtimeType selections)
      (collect schema other context runtimeType compiled) := by
  obtain ⟨hdefined, repeated, hechoes, rfl⟩ := h
  have hown : Concur _ (collect schema document context runtimeType selections)
      (expansion document schema context runtimeType selections) :=
    collect_expansion ha hc hdefined
  have hexpansions : Concur (Echoes []) (expansion document schema context runtimeType selections)
      (expansion document schema context runtimeType repeated) :=
    expansion_echoes hechoes fun _ hm => absurd hm List.not_mem_nil
  have hother : collect schema other context runtimeType
      (document.compiled schema context.bindings repeated) =
        (expansion document schema context runtimeType repeated).map (addAll · []) :=
    gather_expand ho [] [] _
  rw [hother]
  generalize hcollect : collect schema document context runtimeType selections = gathered at hown ⊢
  generalize expansion document schema context runtimeType selections = nodes,
    expansion document schema context runtimeType repeated = others at hown hexpansions ⊢
  cases hown with
  | error raised =>
    cases hexpansions
    exact .error raised
  | ok hown =>
    obtain ⟨own, rfl, hown⟩ := hown
    cases hexpansions with | ok hnodes
    have hkey : ∀ node, (document.compiledNode schema context.bindings node).responseKey =
        node.responseKey := fun _ => rfl
    obtain ⟨groups, hgroups, hmapped⟩ := repeats_of_map hkey (hown.trans hnodes)
    refine .ok ?_
    dsimp only
    rw [hmapped, List.forall₂_map_right_iff]
    have hboth := (List.forall₂_and_left _ _).mpr ⟨defines_collect hc hdefined hcollect, hgroups⟩
    exact hboth.imp fun group other h => compiles_repeats h.1 h.2

end Gathering

end GraphQL
