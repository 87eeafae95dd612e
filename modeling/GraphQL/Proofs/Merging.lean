import GraphQL.Proofs.Calling
import GraphQL.Proofs.Correspondence
import GraphQL.Proofs.Compilation
import GraphQL.Proofs.Flattening
import GraphQL.Proofs.Following

/-!
# Fields that are asked for twice

A field that is asked for twice in one list of selections is gathered into one group. So it makes no
difference whether the second node stands in the document or whether its sub-selections stand behind
those of the first, as long as nothing between the two comes to the same response key. The argument
goes through all of an execution: the groups of an object have the same keys and first nodes, and
their sub-selections differ again by fields that are merged.
-/

namespace GraphQL

open Reference

namespace Document

variable {document : Document}

/-- The selection comes to a field of the response key, if every fragment takes part. -/
inductive Contributes (document : Document) (key : String) : Selection → Prop where
  | field {node : FieldNode} (h : node.responseKey = key) : Contributes document key (.field node)
  | inline {condition : Option String} {directives : List Directive} {selections : List Selection}
      {selection : Selection} (hm : selection ∈ selections) (h : Contributes document key selection) :
      Contributes document key (.inline condition directives selections)
  | spread {name : String} {directives : List Directive} {fragment : FragmentDef}
      {selection : Selection} (hf : document.fragment? name = some fragment)
      (hm : selection ∈ fragment.selections) (h : Contributes document key selection) :
      Contributes document key (.spread name directives)

/-- Two fields of one response key that stand in one list of selections, both without directives and
with nothing between them that comes to the key. The second may ask for its field by any name and
with any arguments: those of the first node of a key decide. -/
structure Twins (document : Document) (first second : FieldNode) (between : List Selection) :
    Prop where
  key : second.responseKey = first.responseKey
  plain : first.directives = []
  plain' : second.directives = []
  apart : ∀ selection ∈ between, ¬ document.Contributes first.responseKey selection

/-- `document.Merges before after`: two fields in one list, somewhere in the selections, are replaced
by the first of them with the sub-selections of both. -/
inductive Merges (document : Document) : List Selection → List Selection → Prop where
  | here (before : List Selection) {first second : FieldNode} {between : List Selection}
      (after : List Selection) (twins : document.Twins first second between) :
      Merges document (before ++ .field first :: (between ++ .field second :: after))
        (before ++
          .field { first with selections := first.selections ++ second.selections } ::
            (between ++ after))
  | field (before : List Selection) {node : FieldNode} {selections : List Selection}
      (after : List Selection) (h : Merges document node.selections selections) :
      Merges document (before ++ .field node :: after)
        (before ++ .field { node with selections } :: after)
  | inline (before : List Selection) (condition : Option String) (directives : List Directive)
      {selections others : List Selection} (after : List Selection)
      (h : Merges document selections others) :
      Merges document (before ++ .inline condition directives selections :: after)
        (before ++ .inline condition directives others :: after)

/-- The document with two fields merged in one of its operations or fragments. -/
inductive MergesInto (document : Document) : Document → Prop where
  | operation {before after : List Operation} {operation : Operation}
      {selections : List Selection} (hd : document.operations = before ++ operation :: after)
      (h : document.Merges operation.selections selections) :
      MergesInto document
        { document with operations := before ++ { operation with selections } :: after }
  | fragment {before after : List FragmentDef} {fragment : FragmentDef}
      {selections : List Selection} (hd : document.fragments = before ++ fragment :: after)
      (h : document.Merges fragment.selections selections) :
      MergesInto document
        { document with fragments := before ++ { fragment with selections } :: after }

/-- Selections that differ by fields that are merged, any number of them at any depth. -/
inductive Merged (document : Document) : List Selection → List Selection → Prop where
  | nil : Merged document [] []
  | field {node : FieldNode} {selections xs ys : List Selection}
      (hs : Merged document node.selections selections) (h : Merged document xs ys) :
      Merged document (.field node :: xs) (.field { node with selections } :: ys)
  | inline (condition : Option String) (directives : List Directive)
      {selections others xs ys : List Selection} (hs : Merged document selections others)
      (h : Merged document xs ys) :
      Merged document (.inline condition directives selections :: xs)
        (.inline condition directives others :: ys)
  | spread (name : String) (directives : List Directive) {xs ys : List Selection}
      (h : Merged document xs ys) :
      Merged document (.spread name directives :: xs) (.spread name directives :: ys)
  | twins {first second : FieldNode} {between after selections ys : List Selection}
      (twins : document.Twins first second between)
      (hs : Merged document (first.selections ++ second.selections) selections)
      (h : Merged document (between ++ after) ys) :
      Merged document (.field first :: (between ++ .field second :: after))
        (.field { first with selections } :: ys)

namespace Merged

theorem refl (selections : List Selection) : document.Merged selections selections := by
  have hlist : ∀ xs : List Selection,
      (∀ selection ∈ xs, ∀ ys zs, document.Merged ys zs →
        document.Merged (selection :: ys) (selection :: zs)) → document.Merged xs xs := by
    intro xs hx
    induction xs with
    | nil => exact .nil
    | cons x xs ih =>
      exact hx x List.mem_cons_self _ _ (ih fun y hy => hx y (List.mem_cons_of_mem _ hy))
  have heach : ∀ selection ys zs, document.Merged ys zs →
      document.Merged (selection :: ys) (selection :: zs) := by
    intro selection
    induction selection with
    | field node ih => exact fun ys zs h => .field (hlist _ ih) h
    | inline condition directives selections ih =>
      exact fun ys zs h => .inline condition directives (hlist _ ih) h
    | spread name directives => exact fun ys zs h => .spread name directives h
  exact hlist selections fun selection _ => heach selection

theorem append {xs ys others more : List Selection} (h : document.Merged xs ys)
    (ho : document.Merged others more) : document.Merged (xs ++ others) (ys ++ more) := by
  induction h with
  | nil => exact ho
  | field hs _ _ ih => exact .field hs ih
  | inline condition directives hs _ _ ih => exact .inline condition directives hs ih
  | spread name directives _ ih => exact .spread name directives ih
  | twins twins hs _ _ ih =>
    rw [List.append_assoc] at ih
    rw [List.cons_append, List.append_assoc, List.cons_append]
    exact .twins twins hs ih

end Merged

theorem Merges.merged {xs ys : List Selection} (h : document.Merges xs ys) :
    document.Merged xs ys := by
  induction h with
  | here before after twins =>
    exact (Merged.refl before).append (.twins twins (.refl _) (.refl _))
  | field before after _ ih => exact (Merged.refl before).append (.field ih (.refl after))
  | inline before condition directives after _ ih =>
    exact (Merged.refl before).append (.inline condition directives ih (.refl after))

/-- An operation of the document and the same one with fields merged. -/
def MergedOperation (document : Document) (operation other : Operation) : Prop :=
  ∃ selections, document.Merged operation.selections selections ∧
    other = { operation with selections }

def MergedFragment (document : Document) (fragment other : FragmentDef) : Prop :=
  ∃ selections, document.Merged fragment.selections selections ∧ other = { fragment with selections }

/-- A document that differs by fields that are merged. -/
structure MergedInto (document other : Document) : Prop where
  operations : List.Forall₂ document.MergedOperation document.operations other.operations
  fragments : List.Forall₂ document.MergedFragment document.fragments other.fragments

theorem MergesInto.merged {other : Document} (h : document.MergesInto other) :
    document.MergedInto other := by
  have hoperations : ∀ operations, List.Forall₂ document.MergedOperation operations operations :=
    fun _ => List.forall₂_same.mpr fun operation _ => ⟨_, .refl operation.selections, rfl⟩
  have hfragments : ∀ fragments, List.Forall₂ document.MergedFragment fragments fragments :=
    fun _ => List.forall₂_same.mpr fun fragment _ => ⟨_, .refl fragment.selections, rfl⟩
  cases h with
  | @operation before after operation selections hd h =>
    refine ⟨?_, hfragments _⟩
    rw [hd]
    exact List.rel_append (hoperations before) (.cons ⟨_, h.merged, rfl⟩ (hoperations after))
  | @fragment before after fragment selections hd h =>
    refine ⟨hoperations _, ?_⟩
    rw [hd]
    exact List.rel_append (hfragments before) (.cons ⟨_, h.merged, rfl⟩ (hfragments after))

namespace MergedInto

variable {other : Document} (h : document.MergedInto other)

include h

theorem fragment? (name : String) :
    Option.Rel document.MergedFragment (document.fragment? name) (other.fragment? name) := by
  rw [Document.fragment?, Document.fragment?, Named.find?, Named.find?]
  refine forall₂_find? h.fragments fun hfragment => ?_
  obtain ⟨selections, -, rfl⟩ := hfragment
  rfl

theorem operation? (name : Option String) :
    Concur document.MergedOperation (document.operation? name) (other.operation? name) := by
  have hoperations := h.operations
  cases name with
  | none =>
    rw [Document.operation?, Document.operation?]
    generalize document.operations = operations, other.operations = others at hoperations
    cases hoperations with
    | nil => exact .error _
    | cons hoperation hrest =>
      cases hrest with
      | nil => exact .ok hoperation
      | cons => exact .error _
  | some name =>
    have hfound := forall₂_find? hoperations
      (p := fun operation => operation.name = some name)
      (q := fun operation => operation.name = some name) fun hoperation => by
        obtain ⟨selections, -, rfl⟩ := hoperation
        rfl
    rw [Document.operation?, Document.operation?]
    generalize document.operations.find? _ = found, other.operations.find? _ = found' at hfound
    cases hfound with
    | none => exact .error _
    | some hoperation => exact .ok hoperation

end MergedInto

end Document

namespace FieldGroup

/-- Nodes that differ by fields that are merged, and by those that are merged among them. -/
inductive MergedNodes (document : Document) : List FieldNode → List FieldNode → Prop where
  | nil : MergedNodes document [] []
  | cons {node : FieldNode} {selections : List Selection} {nodes others : List FieldNode}
      (hs : document.Merged node.selections selections) (h : MergedNodes document nodes others) :
      MergedNodes document (node :: nodes) ({ node with selections } :: others)
  | join {first second : FieldNode} {between after others : List FieldNode}
      {selections : List Selection} (key : second.responseKey = first.responseKey)
      (apart : ∀ node ∈ between, node.responseKey ≠ first.responseKey)
      (hs : document.Merged (first.selections ++ second.selections) selections)
      (h : MergedNodes document (between ++ after) others) :
      MergedNodes document (first :: (between ++ second :: after)) ({ first with selections } :: others)

/-- Groups of one key with the same first node, whose sub-selections differ by fields that are
merged. -/
structure MergedGroup (document : Document) (group other : FieldGroup) : Prop where
  key : group.key = other.key
  node : ∃ selections, other.node = { group.node with selections }
  selections : document.Merged group.selections other.selections

theorem keys_addAll_congr (nodes : List FieldNode) {groups others : List FieldGroup}
    (h : groups.map key = others.map key) :
    (addAll nodes groups).map key = (addAll nodes others).map key := by
  induction nodes generalizing groups others with
  | nil => exact h
  | cons node rest ih => exact ih (by rw [keys_add, keys_add, h])

theorem keys_subset_addAll (nodes : List FieldNode) (groups : List FieldGroup) :
    groups.map key ⊆ (addAll nodes groups).map key := by
  induction nodes generalizing groups with
  | nil => exact List.Subset.refl _
  | cons node rest ih =>
    refine List.Subset.trans ?_ (ih _)
    rw [keys_add]
    split
    · exact List.Subset.refl _
    · exact List.subset_append_left _ _

namespace MergedNodes

variable {document : Document} {nodes others : List FieldNode} (h : MergedNodes document nodes others)

include h

/-- The keys are the same, in the order in which they are met first. -/
theorem keys {groups groups' : List FieldGroup} (hk : groups.map key = groups'.map key) :
    (addAll nodes groups).map key = (addAll others groups').map key := by
  induction h generalizing groups groups' with
  | nil => exact hk
  | @cons node selections _ _ _ _ ih =>
    refine ih ?_
    rw [keys_add, keys_add, hk]
    rfl
  | @join first second between after others selections hkey _ _ _ ih =>
    rw [addAll_cons, addAll_cons, addAll_append, addAll_cons]
    have hfirst : first.responseKey ∈ (add first groups).map key := by
      rw [keys_add]
      split
      · assumption
      · exact List.mem_append_right _ (List.mem_singleton_self _)
    have hthere : second.responseKey ∈ (addAll between (add first groups)).map key :=
      hkey ▸ keys_subset_addAll between _ hfirst
    have hsecond : (add second (addAll between (add first groups))).map key =
        (addAll between (add first groups)).map key := by rw [keys_add, if_pos hthere]
    rw [keys_addAll_congr after hsecond, ← addAll_append]
    refine ih ?_
    rw [keys_add, keys_add, hk]
    rfl

/-- The sub-selections under a key differ by fields that are merged. -/
theorem selections (name : String) :
    document.Merged
      ((nodes.filter fun node => node.responseKey = name).flatMap FieldNodeOf.selections)
      ((others.filter fun node => node.responseKey = name).flatMap FieldNodeOf.selections) := by
  induction h with
  | nil => exact .nil
  | @cons node selections nodes others hs _ ih =>
    have hsame : FieldNodeOf.responseKey { node with selections } = node.responseKey := rfl
    by_cases hk : node.responseKey = name
    · simpa [hk, hsame] using hs.append ih
    · simpa [hk, hsame] using ih
  | @join first second between after others selections hkey apart hs _ ih =>
    have hsame : FieldNodeOf.responseKey { first with selections } = first.responseKey := rfl
    by_cases hk : first.responseKey = name
    · have hnone : between.filter (fun node => node.responseKey = name) = [] :=
        List.filter_eq_nil_iff.mpr fun node hn => by simpa [hk] using apart node hn
      rw [List.filter_append, hnone, List.nil_append] at ih
      simpa [hk, hsame, hkey, hnone] using hs.append ih
    · simpa [hk, hsame, hkey] using ih

/-- The first nodes under a key are the same but for their sub-selections. -/
theorem first (name : String) :
    Option.Rel (fun node other : FieldNode => ∃ selections, other = { node with selections })
      (nodes.find? fun node => node.responseKey = name)
      (others.find? fun node => node.responseKey = name) := by
  induction h with
  | nil => exact .none
  | @cons node selections nodes others _ _ ih =>
    have hsame : FieldNodeOf.responseKey { node with selections } = node.responseKey := rfl
    by_cases hk : node.responseKey = name
    · simp [hk, hsame]
    · simpa [hk, hsame] using ih
  | @join first second between after others selections hkey _ _ _ ih =>
    have hsame : FieldNodeOf.responseKey { first with selections } = first.responseKey := rfl
    by_cases hk : first.responseKey = name
    · simp [hk, hsame]
    · simpa [hk, hsame, hkey, List.find?_append] using ih

/-- The groups are the same but for fields that are merged in their sub-selections. -/
theorem groups :
    List.Forall₂ (MergedGroup document) (addAll nodes []) (addAll others []) := by
  have hkeys : (addAll nodes []).map key = (addAll others []).map key := h.keys rfl
  have heach : ∀ group ∈ addAll nodes [], ∀ other ∈ addAll others [], group.key = other.key →
      MergedGroup document group other := by
    intro group hg other ho hk
    refine ⟨hk, ?_, ?_⟩
    · have hfirst := h.first group.key
      rw [node_of_mem hg, hk, node_of_mem ho] at hfirst
      cases hfirst with
      | some hnode => exact hnode
    · have hselections := h.selections group.key
      rwa [← nodes_of_mem hg, hk, ← nodes_of_mem ho] at hselections
  generalize addAll nodes [] = groups, addAll others [] = groups' at hkeys heach
  clear h
  induction groups generalizing groups' with
  | nil =>
    obtain rfl := List.map_eq_nil_iff.mp hkeys.symm
    exact .nil
  | cons group rest ih =>
    cases groups' with
    | nil => cases hkeys
    | cons other rest' =>
      obtain ⟨hk, hrest⟩ := List.cons.inj hkeys
      exact .cons (heach group List.mem_cons_self other List.mem_cons_self hk)
        (ih rest' hrest fun x hx y hy =>
          heach x (List.mem_cons_of_mem _ hx) y (List.mem_cons_of_mem _ hy))

end MergedNodes

end FieldGroup

namespace Gathering

open FieldGroup (MergedNodes addAll nodesAt_addAll nodes_of_mem)

variable {schema : Schema} {document other : Document} {context : Context} {runtimeType : TypeDef}

/-- Selections that do not contribute to a key have no nodes of the key. -/
theorem flatten_apart {key : String} {visited followed : List String} {work : List Selection}
    {nodes : List FieldNode} (hw : ∀ selection ∈ work, ¬ document.Contributes key selection)
    (h : flatten schema document context runtimeType visited work = .ok (nodes, followed)) :
    ∀ node ∈ nodes, node.responseKey ≠ key := by
  have hgather : gather schema document context runtimeType visited [] work =
      .ok (addAll nodes []) := by
    rw [gather_eq_flatten, h]
    rfl
  have hkeys : key ∉ (addAll nodes []).map FieldGroup.key := by
    refine gather_preserves (P := fun groups => key ∉ groups.map FieldGroup.key)
      (Q := fun selection => ¬ document.Contributes key selection) ?_ ?_ ?_ hgather hw
      List.not_mem_nil
    · intro node groups hn hg
      have hne : key ≠ node.responseKey := fun he => hn (.field he.symm)
      rw [FieldGroup.keys_add]
      split
      · exact hg
      · simpa [hne] using hg
    · exact fun condition directives selections hn selection hm hc => hn (.inline hm hc)
    · exact fun name directives fragment hn hf selection hm hc => hn (.spread hf hm hc)
  intro node hn he
  have hthere : node ∈ FieldGroup.nodesAt key (addAll nodes []) := by
    rw [nodesAt_addAll]
    simpa [FieldGroup.nodesAt, he] using hn
  obtain ⟨group, hm, hk⟩ := FieldGroup.exists_of_mem_nodesAt hthere
  exact hkeys (hk ▸ List.mem_map_of_mem hm)

/-- Nodes that differ by fields that are merged, with the same fragments followed. -/
def MergedFlat (document : Document) (reached reached' : List FieldNode × List String) : Prop :=
  MergedNodes document reached.1 reached'.1 ∧ reached.2 = reached'.2

theorem merged_behind {node : FieldNode} {selections : List Selection} {flattened other : Flattened}
    (hs : document.Merged node.selections selections)
    (h : Concur (MergedFlat document) flattened other) :
    Concur (MergedFlat document) (flattened.behind [node])
      (other.behind [{ node with selections }]) := by
  cases h with
  | error raised => exact .error raised
  | ok h => exact .ok ⟨.cons hs h.1, h.2⟩

/-- Two fields are joined over whatever lies between them. -/
theorem merged_twins {first second : FieldNode} {between after selections : List Selection}
    {visited : List String} {flattened : Flattened}
    (ht : document.Twins first second between)
    (hs : document.Merged (first.selections ++ second.selections) selections)
    (h : Concur (MergedFlat document)
      (flatten schema document context runtimeType visited (between ++ after)) flattened) :
    Concur (MergedFlat document)
      (flatten schema document context runtimeType visited
        (.field first :: (between ++ .field second :: after)))
      (flattened.behind [{ first with selections }]) := by
  have hfirst : shouldInclude schema context.bindings first.directives = true := by
    rw [ht.plain]
    rfl
  have hsecond : shouldInclude schema context.bindings second.directives = true := by
    rw [ht.plain']
    rfl
  rw [flatten_append] at h
  rw [flatten_field hfirst, flatten_append]
  cases hb : flatten schema document context runtimeType visited between with
  | error raised =>
    rw [hb] at h
    cases h
    exact .error raised
  | ok reached =>
    obtain ⟨nodes, followed⟩ := reached
    rw [hb] at h
    simp only [Flattened.next, Except.bind, flatten_field hsecond] at h ⊢
    generalize flatten schema document context runtimeType followed after = rest at h
    cases rest with
    | error raised =>
      cases h
      exact .error raised
    | ok last =>
      cases h with
      | ok h => exact .ok ⟨.join ht.key (flatten_apart ht.apart hb) hs h.1, h.2⟩

/-- Where a fragment is spread, its selections and those that are left differ by merged fields as
well, whether or not the fragment is followed. -/
theorem merged_spread (hd : document.MergedInto other) {visited : List String} {name : String}
    {directives : List Directive} {rest rest' : List Selection}
    (hrest : document.Merged rest rest')
    (hskip : Concur (MergedFlat document)
      (flatten schema document context runtimeType visited rest)
      (flatten schema other context runtimeType visited rest'))
    (hfollow : ∀ fragment, document.fragment? name = some fragment →
      visited.contains name = false → ∀ {work given : List Selection},
        document.Merged work given → Concur (MergedFlat document)
          (flatten schema document context runtimeType (name :: visited) work)
          (flatten schema other context runtimeType (name :: visited) given)) :
    Concur (MergedFlat document)
      (flatten schema document context runtimeType visited (.spread name directives :: rest))
      (flatten schema other context runtimeType visited (.spread name directives :: rest')) := by
  have hfragment := hd.fragment? name
  generalize hf : document.fragment? name = found at hfragment
  generalize hf' : other.fragment? name = found' at hfragment
  cases hfragment with
  | none =>
    rw [flatten_unknown hf, flatten_unknown hf']
    exact .error _
  | some hbody =>
    obtain ⟨selections, hbody, rfl⟩ := hbody
    rw [flatten_spread hf, flatten_spread hf']
    split
    · exact hskip
    · next hv =>
      have hnext : ∀ {work given : List Selection}, document.Merged work given →
          Concur (MergedFlat document)
            (flatten schema document context runtimeType (name :: visited) work)
            (flatten schema other context runtimeType (name :: visited) given) :=
        hfollow _ hf (by simpa using hv)
      split
      · dsimp only
        split
        · exact .error _
        · exact hnext (hbody.append hrest)
        · exact hnext hrest
      · exact hskip

/-- Selections that differ by fields that are merged are flattened alike. -/
theorem flatten_merged (hd : document.MergedInto other) (visited : List String)
    {work given : List Selection} (h : document.Merged work given) :
    Concur (MergedFlat document) (flatten schema document context runtimeType visited work)
      (flatten schema other context runtimeType visited given) := by
  -- the induction is the one by which flattening ends, on the fragments that can be followed and
  -- the selections that are left
  induction hm : ({ visited, work } : Point).measure document using WellFoundedLT.induction
    generalizing visited work given with
  | ind measure ih =>
  subst hm
  have hless : ∀ {rest : List Selection} (given : List Selection),
      Selection.weights rest < Selection.weights work → document.Merged rest given →
        Concur (MergedFlat document) (flatten schema document context runtimeType visited rest)
          (flatten schema other context runtimeType visited given) :=
    fun _ hlt hrest => ih _ (.right _ hlt) visited hrest rfl
  cases h with
  | nil =>
    rw [flatten, flatten]
    exact .ok ⟨.nil, rfl⟩
  | @field node selections xs ys hs hrest =>
    rw [flatten, flatten]
    split
    · exact merged_behind hs (hless _ (weights_lt_cons _ _) hrest)
    · exact hless _ (weights_lt_cons _ _) hrest
  | @inline condition directives selections others xs ys hs hrest =>
    rw [flatten, flatten]
    split
    · rcases appliesIfAny schema context condition runtimeType with raised | (_ | _)
      · exact .error raised
      · exact hless _ (weights_lt_cons _ _) hrest
      · exact hless _ (weights_append_lt _ (weights_lt_inline _ _ _)) (hs.append hrest)
    · exact hless _ (weights_lt_cons _ _) hrest
  | @spread name directives xs ys hrest =>
    refine merged_spread hd hrest (hless _ (weights_lt_cons _ _) hrest) fun fragment hf hv => ?_
    exact fun hmerged => ih _ (.left _ _ (unvisited_length_lt document hf hv)) (name :: visited)
      hmerged rfl
  | @twins first second between after selections ys ht hs hrest =>
    have hlt : Selection.weights (between ++ after) <
        Selection.weights (.field first :: (between ++ .field second :: after)) := by
      simp only [Selection.weights, Selection.weights_append, Selection.weight]
      omega
    have hincluded : shouldInclude schema context.bindings first.directives = true := by
      rw [ht.plain]
      rfl
    have hgiven : flatten schema other context runtimeType visited
        (.field { first with selections } :: ys) =
          (flatten schema other context runtimeType visited ys).behind
            [{ first with selections }] := flatten_field hincluded
    rw [hgiven]
    exact merged_twins ht hs (hless _ hlt hrest)

/-- Selections that differ by fields that are merged are gathered into the same groups, but for
fields that are merged in their sub-selections. -/
theorem collect_merged (hd : document.MergedInto other) {selections others : List Selection}
    (h : document.Merged selections others) :
    Concur (List.Forall₂ (FieldGroup.MergedGroup document))
      (collect schema document context runtimeType selections)
      (collect schema other context runtimeType others) := by
  have hflat : Concur (MergedFlat document)
      (flatten schema document context runtimeType [] selections)
      (flatten schema other context runtimeType [] others) := flatten_merged hd [] h
  rw [collect_eq_flatten, collect_eq_flatten]
  generalize flatten schema document context runtimeType [] selections = reached,
    flatten schema other context runtimeType [] others = reached' at hflat
  cases hflat with
  | error raised => exact .error raised
  | ok h => exact .ok h.1.groups

end Gathering

/-- What stands for what in a document and in one with fields merged: the types are the same, and no
field of them asks for its node. -/
def Correspondence.merging (document : Document) : Correspondence where
  view := id
  type type other := type = other ∧ type.isNodeless
  definition definition other := definition = other ∧ (TypeRef.resolved definition).isNodeless
  selections := document.Merged
  group := FieldGroup.MergedGroup document

section Corresponding

variable {env : Environment} {other : Document} {frame : ObjectFrame} {group group' : FieldGroup}

theorem lookup_merged (h : group.MergedGroup env.document group') :
    lookup { env with document := other } frame group' = lookup env frame group := by
  obtain ⟨selections, hnode⟩ := h.node
  rw [lookup, lookup, hnode]

/-- Of what a resolver is given, only the node tells sub-selections apart. -/
theorem arguments_merged (h : group.MergedGroup env.document group') {found : FieldLookup}
    (hf : FieldDef.Nodeless found.definition) :
    arguments { env with document := other } frame group' found =
      arguments env frame group found := by
  obtain ⟨selections, hnode⟩ := h.node
  rw [arguments, arguments, Preparation.arguments, Preparation.arguments, hf.extras, hnode, h.key]
  rfl

theorem answer_merged (h : group.MergedGroup env.document group') {found : FieldLookup}
    (hf : FieldDef.Nodeless found.definition) (type : TypeRef) :
    answer { env with document := other } frame group' found type =
      answer env frame group found type := by
  obtain ⟨selections, hnode⟩ := h.node
  unfold answer
  rw [arguments_merged h hf, hnode, h.key]

theorem Shaped.of_merged (site : Site) (selections : List Selection) (content : Content)
    (type : TypeRef) :
    of { env with document := other } (site.exchange site.type selections) content type =
      of env site content type := by
  induction type with
  | nonNull inner ih => exact ih
  | list item _ => rfl
  | resolved definition => cases definition <;> rfl
  | late name =>
    rw [of, of]
    cases env.schema.visibleType? env.context name with
    | none => rfl
    | some definition => cases definition <;> rfl

theorem Correspondence.shapes_merging {shaped : Shaped} (h : shaped.isNodeless) :
    (Correspondence.merging env.document).Shapes shaped shaped := by
  cases shaped with
  | null errors => exact .null errors
  | leaf output => exact .leaf output
  | list itemType items => exact .list items ⟨rfl, h⟩
  | object type value => exact .object value ⟨rfl, h⟩
  | fault raised => exact .fault raised

/-- The request is executed as the one with fields merged is. -/
theorem Environment.holds_merged (hs : env.schema.isNodeless) (hd : env.document.MergedInto other) :
    (Correspondence.merging env.document).Holds env { env with document := other } where
  config := rfl
  registry := rfl
  required _ := rfl
  view ht := ht.1
  name ht := congrArg TypeDefOf.name ht.1
  group h := by
    obtain ⟨selections, hnode⟩ := h.node
    exact ⟨h.key, by rw [hnode], by rw [hnode], h.selections⟩
  collect := by
    rintro type _ selections others ⟨rfl, -⟩ hmerged
    exact Gathering.collect_merged hd hmerged
  field := by
    rintro frame _ group group' ⟨rfl, hframe⟩ hgroup
    rw [lookup_merged hgroup]
    cases hl : lookup env frame group with
    | error raised => exact .error raised
    | ok entry =>
      obtain ⟨found, type⟩ := entry
      obtain ⟨hfound, htype⟩ := nodeless_lookup hs hframe hl
      refine .ok ⟨⟨rfl, htype⟩, ?_, ?_, ?_⟩
      · cases found with
        | ordinary definition => exact .ordinary _ _
        | introspection field => exact .introspection field
      · exact (congrArg ResolverArgs.collector (arguments_merged hgroup hfound)).symm
      · exact congrArg Prod.fst (answer_merged hgroup hfound type).symm
  shape {site _} hsite content := by
    cases hsite with | @intro type selections htype _
    obtain ⟨rfl, hnodeless⟩ := htype
    show Correspondence.Shapes _ _ (Shaped.of { env with document := other } _ content site.type)
    rw [Shaped.of_merged]
    exact Correspondence.shapes_merging (Shaped.nodeless_of hs site content hnodeless)
  authorize := by
    rintro type _ ⟨⟨rfl⟩, -⟩ value
    rfl

end Corresponding

namespace Executor

variable {schema : Schema} {request : Request} {document : Document}

/-- The request with fields merged starts if the request does. -/
theorem start_merged (executor : Executor) (hs : schema.isNodeless)
    (hd : request.document.MergedInto document) :
    StartAlike (State.SeenAlike id) (executor.start schema request)
      (executor.start schema { request with document }) := by
  have hoperation := hd.operation? request.operationName
  rw [start_eq, start_eq]
  dsimp only
  generalize request.document.operation? request.operationName = found,
    document.operation? request.operationName = found' at hoperation
  cases hoperation with
  | error raised => exact .error raised
  | @ok operation _ hmerged =>
    obtain ⟨selections, hselections, rfl⟩ := hmerged
    have hcontext : ({ operation with selections } : Operation).withDefaults request.context =
        operation.withDefaults request.context := rfl
    dsimp only
    have hroot : Request.context { request with document } = request.context := rfl
    rw [hroot, hcontext]
    cases ht : schema.rootType (operation.withDefaults request.context) operation.kind with
    | error raised => exact .error raised
    | ok rootType =>
      have hholds := @Environment.holds_merged (executor.environment schema request operation)
        document hs hd
      have hkind : operation.kind = ({ operation with selections } : Operation).kind := rfl
      have halike : (Machine.start operation rootType request.root).Alike (State.SeenAlike id)
          (Correspondence.merging request.document).Works
          (.start { operation with selections } rootType request.root) :=
        Correspondence.start_alike (.merging request.document) hkind
          ⟨rfl, Schema.nodeless_rootType hs ht⟩ hselections request.root
      exact .ok ⟨_, hholds.lockstep, halike⟩

/-- **Merging fields preserves meaning.** A request in which two fields of one response key are
merged is answered as it was before: with the same response or fault, after as many moves and whoever
chooses them. And in every run of either that ends well, each response key of each object is called
for once, by the first of its nodes. -/
theorem merging_preserves_meaning (executor : Executor) (hs : schema.isNodeless)
    (hp : executor.config.pruneCollapsedSubtrees = false)
    (hd : request.document.MergesInto document) :
    (∀ moves, executor.execute schema { request with document } moves =
        executor.execute schema request moves) ∧
      (∀ result, executor.Reaches schema { request with document } result ↔
        executor.Reaches schema request result) ∧
      executor.CallsOnce schema request ∧ executor.CallsOnce schema { request with document } := by
  have hstart : StartAlike Eq (executor.start schema request)
      (executor.start schema { request with document }) := by
    have hsame : State.SeenAlike id = Eq := by
      funext state other
      rw [State.SeenAlike, State.viewed_id, State.viewed_id]
    exact hsame ▸ start_merged executor hs hd.merged
  refine ⟨fun moves => execute_eq_of_alike hstart.symm moves, fun result => ?_,
    calls_once schema request hp, calls_once schema { request with document } hp⟩
  exact ⟨reaches_of_alike hstart.symm, reaches_of_alike hstart⟩

end Executor

namespace Sample

def nameAs (key : String) : Selection := .field { aliasName := some key, name := "name" }

/-- A user whose name is asked for twice, with another user in between. -/
def reunion (selections : List Selection) : Request where
  document := { operations := [{ selections }] }

def asker (key : String) : FieldNode := { name := "user", selections := [nameAs key] }

def between : List Selection :=
  [.inline none [] [.field { aliasName := some "guest", name := "user",
                             selections := [nameAs "name"] }]]

/-- The user is asked for by two nodes of one response key. -/
def apart : Request :=
  reunion (.field (asker "name") :: (between ++ [.field (asker "title")]))

/-- The user is asked for by one node. -/
def together : Request :=
  reunion (.field { asker "name" with selections := [nameAs "name", nameAs "title"] } :: between)

theorem apart_twins : apart.document.Twins (asker "name") (asker "title") between where
  key := rfl
  plain := rfl
  plain' := rfl
  apart selection hm hc := by
    obtain rfl := List.mem_singleton.mp hm
    cases hc with
    | inline hm h =>
      obtain rfl := List.mem_singleton.mp hm
      cases h with
      | field h => exact absurd h (by decide)

theorem apart_merges : apart.document.MergesInto together.document := by
  have hselections : apart.document.Merges
      (.field (asker "name") :: (between ++ [.field (asker "title")]))
      (.field { asker "name" with selections := [nameAs "name", nameAs "title"] } :: between) :=
    .here [] [] apart_twins
  have hoperations : apart.document.operations =
      [] ++ { selections := .field (asker "name") :: (between ++ [.field (asker "title")]) } :: [] := rfl
  exact .operation hoperations hselections

end Sample

namespace Executor

open Sample

/-- The theorem at a user whose name is asked for by two nodes: it is answered to both. -/
theorem together_as_apart :
    (Sample.executor (.ready (.value (.str "Ada")))).execute titled together 60 =
      (Sample.executor (.ready (.value (.str "Ada")))).execute titled apart 60 ∧
    ((Sample.executor (.ready (.value (.str "Ada")))).execute titled together 60).map
        (Except.map fun execution => execution.response.data) =
      some (.ok (.obj [("user", .obj [("name", .str "Ada"), ("title", .str "Ada")]),
        ("guest", .obj [("name", .str "Ada")])])) := by
  have hs : titled.isNodeless := by decide
  obtain ⟨hexecute, -⟩ := merging_preserves_meaning
    (Sample.executor (.ready (.value (.str "Ada")))) hs rfl apart_merges
  refine ⟨hexecute 60, ?_⟩
  cbv

end Executor

end GraphQL
