import GraphQL.Proofs.Gathered
import Mathlib.Logic.Relation

/-!
# Acyclic documents

A document is acyclic if no fragment leads back to itself by spreads, however deep they stand in its
selections. Following the fragments of such a document, objects lie inside each other only so deep:
`Shallow` bounds how deep that is, and gathering the fields of an object takes one from the bound.
-/

namespace GraphQL

/-- Induction on selections: on the sub-selections of fields and of inline fragments. -/
@[induction_eliminator]
theorem Selection.nested {motive : Selection → Prop}
    (field : ∀ node : FieldNode, (∀ selection ∈ node.selections, motive selection) →
      motive (.field node))
    (inline : ∀ condition directives selections, (∀ selection ∈ selections, motive selection) →
      motive (.inline condition directives selections))
    (spread : ∀ name directives, motive (.spread name directives)) :
    ∀ selection, motive selection := by
  intro selection
  refine @Selection.rec motive (fun node => ∀ selection ∈ node.selections, motive selection)
    (fun selections => ∀ selection ∈ selections, motive selection)
    field inline spread ?_ ?_ ?_ selection
  · exact fun _ _ _ _ _ _ h => h
  · exact fun selection hm => nomatch hm
  · intro head tail hhead htail selection hm
    rcases List.mem_cons.mp hm with rfl | hm
    · exact hhead
    · exact htail selection hm

/-- The fragment is spread somewhere in the selection. -/
inductive Selection.Mentions (name : String) : Selection → Prop where
  | field {node : FieldNode} {selection : Selection} (hm : selection ∈ node.selections)
      (h : Mentions name selection) : Mentions name (.field node)
  | inline {condition : Option String} {directives : List Directive} {selections : List Selection}
      {selection : Selection} (hm : selection ∈ selections) (h : Mentions name selection) :
      Mentions name (.inline condition directives selections)
  | spread (directives : List Directive) : Mentions name (.spread name directives)

namespace Document

variable {document : Document}

/-- The first fragment spreads the second. -/
def Spreads (document : Document) (first second : String) : Prop :=
  ∃ fragment, document.fragment? first = some fragment ∧
    ∃ selection ∈ fragment.selections, selection.Mentions second

/-- No fragment leads back to itself. -/
def Acyclic (document : Document) : Prop := ∀ name, ¬ Relation.TransGen document.Spreads name name

/-- A document is acyclic if its fragments have ranks and spread only those of smaller ones. -/
theorem acyclic_of_rank (rank : String → Nat)
    (h : ∀ {first second}, document.Spreads first second → rank second < rank first) :
    document.Acyclic := by
  have hlt : ∀ {first second}, Relation.TransGen document.Spreads first second →
      rank second < rank first := by
    intro first second hpath
    induction hpath with
    | single hstep => exact h hstep
    | tail _ hstep ih => exact Nat.lt_trans (h hstep) ih
  exact fun name hcycle => Nat.lt_irrefl _ (hlt hcycle)

/-- What leads to a fragment is not the fragment itself. -/
theorem Acyclic.unvisited (h : document.Acyclic) {visited : List String} {name : String}
    (hv : ∀ other ∈ visited, Relation.TransGen document.Spreads other name) :
    visited.contains name = false := by
  by_contra hc
  exact h name (hv name (by simpa using hc))

/-- Induction on selections that follows spreads, in the fragments of an acyclic document. `visited`
are fragments that lead to the one in question; none of them can be spread again. -/
theorem Acyclic.fragment_induction (h : document.Acyclic) {motive : Selection → Prop}
    (field : ∀ node : FieldNode, (∀ selection ∈ node.selections, motive selection) →
      motive (.field node))
    (inline : ∀ condition directives selections, (∀ selection ∈ selections, motive selection) →
      motive (.inline condition directives selections))
    (spread : ∀ name directives, (∀ fragment, document.fragment? name = some fragment →
      ∀ selection ∈ fragment.selections, motive selection) → motive (.spread name directives))
    (visited : List String) {name : String}
    (hv : ∀ other ∈ visited, Relation.TransGen document.Spreads other name) :
    ∀ fragment, document.fragment? name = some fragment →
      ∀ selection ∈ fragment.selections, motive selection := by
  generalize hcount : (Gathering.unvisited document visited).length = count
  induction count using Nat.strongRecOn generalizing visited name with
  | ind count ih =>
    intro fragment hf selection hm
    have hlt := Gathering.unvisited_length_lt document hf (h.unvisited hv)
    have hmentions : ∀ other, selection.Mentions other → document.Spreads name other :=
      fun other ho => ⟨fragment, hf, selection, hm, ho⟩
    clear hm
    induction selection with
    | field node ihs =>
      exact field node fun inner hi => ihs inner hi fun other ho => hmentions other (.field hi ho)
    | inline condition directives selections ihs =>
      exact inline _ _ _ fun inner hi => ihs inner hi fun other ho => hmentions other (.inline hi ho)
    | spread other directives =>
      have hstep := hmentions other (.spread directives)
      refine spread other directives (ih _ (hcount ▸ hlt) (name :: visited) (fun before hb => ?_) rfl)
      rcases List.mem_cons.mp hb with rfl | hb
      · exact .single hstep
      · exact (hv before hb).tail hstep

/-- Induction on selections that follows spreads: on the sub-selections of fields and of inline
fragments, and on the selections of fragments that are spread. -/
theorem Acyclic.induction (h : document.Acyclic) {motive : Selection → Prop}
    (field : ∀ node : FieldNode, (∀ selection ∈ node.selections, motive selection) →
      motive (.field node))
    (inline : ∀ condition directives selections, (∀ selection ∈ selections, motive selection) →
      motive (.inline condition directives selections))
    (spread : ∀ name directives, (∀ fragment, document.fragment? name = some fragment →
      ∀ selection ∈ fragment.selections, motive selection) → motive (.spread name directives))
    (selection : Selection) : motive selection := by
  induction selection with
  | field node ih => exact field node ih
  | inline condition directives selections ih => exact inline _ _ _ ih
  | spread name directives =>
    exact spread name directives
      (h.fragment_induction field inline spread [] fun _ hm => nomatch hm)

/-- At most so many objects lie inside each other below the selection. -/
inductive Shallow (document : Document) : Nat → Selection → Prop where
  | field {depth : Nat} {node : FieldNode}
      (each : ∀ selection ∈ node.selections, Shallow document depth selection) :
      Shallow document (depth + 1) (.field node)
  | inline {depth : Nat} {condition : Option String} {directives : List Directive}
      {selections : List Selection}
      (each : ∀ selection ∈ selections, Shallow document depth selection) :
      Shallow document depth (.inline condition directives selections)
  | spread {depth : Nat} {name : String} {directives : List Directive}
      (each : ∀ fragment, document.fragment? name = some fragment →
        ∀ selection ∈ fragment.selections, Shallow document depth selection) :
      Shallow document depth (.spread name directives)

theorem Shallow.mono {depth more : Nat} {selection : Selection}
    (h : document.Shallow depth selection) (hle : depth ≤ more) :
    document.Shallow more selection := by
  induction h generalizing more with
  | field _ ih =>
    obtain ⟨more, rfl⟩ : ∃ less, more = less + 1 := ⟨more - 1, by omega⟩
    exact .field fun selection hm => ih selection hm (Nat.le_of_succ_le_succ hle)
  | inline _ ih => exact .inline fun selection hm => ih selection hm hle
  | spread _ ih => exact .spread fun fragment hf selection hm => ih fragment hf selection hm hle

theorem exists_shallow_all {selections : List Selection}
    (h : ∀ selection ∈ selections, ∃ depth, document.Shallow depth selection) :
    ∃ depth, ∀ selection ∈ selections, document.Shallow depth selection := by
  induction selections with
  | nil => exact ⟨0, fun _ hm => nomatch hm⟩
  | cons first rest ih =>
    obtain ⟨a, ha⟩ := h first List.mem_cons_self
    obtain ⟨b, hb⟩ := ih fun selection hm => h selection (List.mem_cons_of_mem _ hm)
    refine ⟨max a b, fun selection hm => ?_⟩
    rcases List.mem_cons.mp hm with rfl | hm
    · exact ha.mono (Nat.le_max_left _ _)
    · exact (hb selection hm).mono (Nat.le_max_right _ _)

/-- The selections of an acyclic document are shallow. -/
theorem Acyclic.exists_shallow (h : document.Acyclic) (selections : List Selection) :
    ∃ depth, ∀ selection ∈ selections, document.Shallow depth selection := by
  refine exists_shallow_all fun selection hm => ?_
  clear hm
  induction selection using h.induction with
  | field node ih =>
    obtain ⟨depth, hd⟩ := exists_shallow_all ih
    exact ⟨depth + 1, .field hd⟩
  | inline condition directives selections ih =>
    obtain ⟨depth, hd⟩ := exists_shallow_all ih
    exact ⟨depth, .inline hd⟩
  | spread name directives ih =>
    cases hf : document.fragment? name with
    | none => exact ⟨0, .spread fun fragment hs => by rw [hf] at hs; cases hs⟩
    | some fragment =>
      obtain ⟨depth, hd⟩ := exists_shallow_all (ih fragment hf)
      exact ⟨depth, .spread fun found hs => by rw [hf] at hs; cases hs; exact hd⟩

end Document

namespace Gathering

variable {schema : Schema} {document : Document} {context : Context} {runtimeType : TypeDef}

/-- Gathering the fields of an object takes one from the bound. -/
theorem shallow_collect {selections : List Selection} {groups : List FieldGroup} {depth : Nat}
    (h : collect schema document context runtimeType selections = .ok groups)
    (hs : ∀ selection ∈ selections, document.Shallow depth selection) :
    ∀ group ∈ groups, ∃ less < depth, ∀ selection ∈ group.selections,
      document.Shallow less selection := by
  have hnodes : ∀ group ∈ groups, ∀ node ∈ group.nodes, document.Shallow depth (.field node) := by
    refine gather_preserves
      (P := fun groups => ∀ group ∈ groups, ∀ node ∈ group.nodes,
        document.Shallow depth (.field node))
      (Q := document.Shallow depth) ?_ ?_ ?_ h hs fun _ hm => nomatch hm
    · intro node groups hq hp group hg other ho
      rcases FieldGroup.mem_nodes_add hg ho with rfl | ⟨old, hold, hnode⟩
      · exact hq
      · exact hp old hold other hnode
    · intro condition directives selections hq
      cases hq with
      | inline each => exact each
    · intro name directives fragment hq hf
      cases hq with
      | spread each => exact each fragment hf
  intro group hg
  have hfirst := hnodes group hg group.node List.mem_cons_self
  cases hfirst with
  | @field less _ each =>
    refine ⟨less, Nat.lt_succ_self less, fun selection hm => ?_⟩
    obtain ⟨node, hn, hsel⟩ := List.mem_flatMap.mp hm
    cases hnodes group hg node hn with
    | field each => exact each selection hsel

end Gathering

end GraphQL
