import GraphQL.Proofs.Flattening
import Mathlib.Data.List.Nodup
import Mathlib.Data.Set.Basic

/-!
# Valid selections

When selections may be made on the objects of a type: all fragments in them are known, and each
field that they offer to such an object is a field of the type below which valid selections are
made. Fields of one response key are completed together, with the sub-selections of all of them:
these have to be valid together for the type of each of the fields, so a key is not valid if its
fields conflict below it. No directive is regarded: a selection that is excluded has to be valid like
the others.
-/

namespace GraphQL

variable {env : Environment}

/-- All fragments that are followed at an object are defined, and their conditions name types that
the request sees. -/
inductive Selection.Known (env : Environment) : Selection → Prop where
  | field (node : FieldNode) : Known env (.field node)
  | inline {condition : Option String} {directives : List Directive} {selections : List Selection}
      (hc : ∀ name, condition = some name →
        ∃ definition, env.schema.visibleType? env.context name = some definition)
      (each : ∀ selection ∈ selections, Known env selection) :
      Known env (.inline condition directives selections)
  | spread {name : String} {directives : List Directive} {fragment : FragmentDef}
      {definition : TypeDef} (hf : env.document.fragment? name = some fragment)
      (hc : env.schema.visibleType? env.context fragment.condition = some definition)
      (each : ∀ selection ∈ fragment.selections, Known env selection) :
      Known env (.spread name directives)

/-- The field is selected on objects of the type, perhaps inside of fragments that apply to it. -/
inductive Selection.Offers (env : Environment) (type : TypeDef) : Selection → FieldNode → Prop where
  | field (node : FieldNode) : Offers env type (.field node) node
  | inline {condition : Option String} {directives : List Directive} {selections : List Selection}
      {selection : Selection} {node : FieldNode}
      (ha : Gathering.appliesIfAny env.schema env.context condition type = .ok true)
      (hm : selection ∈ selections) (h : Offers env type selection node) :
      Offers env type (.inline condition directives selections) node
  | spread {name : String} {directives : List Directive} {fragment : FragmentDef}
      {selection : Selection} {node : FieldNode}
      (hf : env.document.fragment? name = some fragment)
      (ha : Gathering.applies env.schema env.context fragment.condition type = .ok true)
      (hm : selection ∈ fragment.selections) (h : Offers env type selection node) :
      Offers env type (.spread name directives) node

namespace Environment

/-- One of the selections offers the field. -/
def Offers (env : Environment) (type : TypeDef) (selections : Set Selection) (node : FieldNode) :
    Prop :=
  ∃ selection ∈ selections, selection.Offers env type node

/-- The sub-selections of all fields of a response key. -/
def below (env : Environment) (type : TypeDef) (selections : Set Selection) (key : String) :
    Set Selection :=
  {selection | ∃ node, env.Offers type selections node ∧ node.responseKey = key ∧
    selection ∈ node.selections}

/-- The selections are valid for objects of the type. -/
inductive Valid (env : Environment) : TypeDef → Set Selection → Prop where
  | intro {type : TypeDef} {selections : Set Selection}
      (known : ∀ selection ∈ selections, selection.Known env)
      (fields : ∀ node, env.Offers type selections node →
        ∃ found, env.schema.field? type node.name = some found)
      (each : ∀ node, env.Offers type selections node → ∀ found,
        env.schema.field? type node.name = some found → ∀ definition,
          env.schema.visibleType? env.context found.definition.type.baseName = some definition →
            Valid env definition (env.below type selections node.responseKey)) :
      Valid env type selections

variable {type : TypeDef} {selections others : Set Selection}

theorem Offers.mono {node : FieldNode} (h : env.Offers type others node)
    (hsub : others ⊆ selections) : env.Offers type selections node := by
  obtain ⟨selection, hm, h⟩ := h
  exact ⟨selection, hsub hm, h⟩

theorem below_mono (hsub : others ⊆ selections) (key : String) :
    env.below type others key ⊆ env.below type selections key := by
  rintro selection ⟨node, ho, hk, hm⟩
  exact ⟨node, ho.mono hsub, hk, hm⟩

theorem Valid.mono (h : env.Valid type selections) (hsub : others ⊆ selections) :
    env.Valid type others := by
  induction h generalizing others with
  | intro known fields _ ih =>
    refine .intro (fun selection hm => known selection (hsub hm))
      (fun node ho => fields node (ho.mono hsub)) fun node ho found hf definition hv => ?_
    exact ih node (ho.mono hsub) found hf definition hv (below_mono hsub _)

/-- Nothing has to be known to select nothing. -/
theorem Valid.nil (env : Environment) (type : TypeDef) :
    env.Valid type {selection | selection ∈ ([] : List Selection)} := by
  have hnone : ∀ node, ¬ env.Offers type {selection | selection ∈ ([] : List Selection)} node := by
    rintro node ⟨selection, hm, -⟩
    cases hm
  exact .intro (fun _ hm => nomatch hm) (fun node ho => absurd ho (hnone node))
    fun node ho => absurd ho (hnone node)

/-- Fields of distinct response keys may be looked at one by one. -/
theorem Valid.of_distinct (known : ∀ selection ∈ selections, selection.Known env)
    (nodes : List FieldNode) (hoffers : ∀ node, env.Offers type selections node → node ∈ nodes)
    (hkeys : (nodes.map FieldNodeOf.responseKey).Nodup)
    (each : ∀ node ∈ nodes, ∃ found definition, env.schema.field? type node.name = some found ∧
      env.schema.visibleType? env.context found.definition.type.baseName = some definition ∧
        env.Valid definition {selection | selection ∈ node.selections}) :
    env.Valid type selections := by
  refine .intro known (fun node ho => ?_) fun node ho found hf definition hv => ?_
  · obtain ⟨found, -, hf, -⟩ := each node (hoffers node ho)
    exact ⟨found, hf⟩
  · obtain ⟨found', definition', hf', hv', hvalid⟩ := each node (hoffers node ho)
    obtain rfl : found' = found := Option.some.inj (hf'.symm.trans hf)
    obtain rfl : definition' = definition := Option.some.inj (hv'.symm.trans hv)
    refine hvalid.mono ?_
    rintro selection ⟨other, hother, hkey, hm⟩
    obtain rfl : other = node :=
      List.inj_on_of_nodup_map hkeys (hoffers other hother) (hoffers node ho) hkey
    exact hm

theorem Valid.of_fields (nodes : List FieldNode)
    (hkeys : (nodes.map FieldNodeOf.responseKey).Nodup)
    (each : ∀ node ∈ nodes, ∃ found definition, env.schema.field? type node.name = some found ∧
      env.schema.visibleType? env.context found.definition.type.baseName = some definition ∧
        env.Valid definition {selection | selection ∈ node.selections}) :
    env.Valid type {selection | selection ∈ nodes.map Selection.field} := by
  refine .of_distinct (fun selection hm => ?_) nodes ?_ hkeys each
  · obtain ⟨node, -, rfl⟩ := List.mem_map.mp hm
    exact .field node
  · rintro node ⟨selection, hm, ho⟩
    obtain ⟨other, ho', rfl⟩ := List.mem_map.mp hm
    cases ho
    exact ho'

end Environment

namespace Gathering

variable {type : TypeDef}

theorem applies_of_visible {condition : String} {definition : TypeDef}
    (h : env.schema.visibleType? env.context condition = some definition) (raised : Fault) :
    applies env.schema env.context condition type ≠ .error raised := by
  rw [applies, h]
  exact fun he => nomatch he

theorem appliesIfAny_of_visible {condition : Option String}
    (h : ∀ name, condition = some name →
      ∃ definition, env.schema.visibleType? env.context name = some definition) (raised : Fault) :
    appliesIfAny env.schema env.context condition type ≠ .error raised := by
  cases condition with
  | none => exact fun he => nomatch he
  | some name =>
    obtain ⟨definition, hv⟩ := h name rfl
    exact applies_of_visible hv raised

/-- Selections have been flattened without a fault, into fields that one of the work offers. -/
def Flattened.OfferedBy (env : Environment) (type : TypeDef) (work : List Selection)
    (flattened : Flattened) : Prop :=
  ∃ reached, flattened = .ok reached ∧
    ∀ node ∈ reached.1, env.Offers type {selection | selection ∈ work} node

namespace Flattened.OfferedBy

variable {flattened : Flattened} {rest : List Selection}

theorem cons (h : flattened.OfferedBy env type rest) (first : Selection) :
    flattened.OfferedBy env type (first :: rest) := by
  obtain ⟨reached, hreached, hoffers⟩ := h
  exact ⟨reached, hreached, fun node hm =>
    (hoffers node hm).mono fun _ hs => List.mem_cons_of_mem first hs⟩

theorem field (h : flattened.OfferedBy env type rest) (node : FieldNode) :
    (flattened.behind [node]).OfferedBy env type (.field node :: rest) := by
  obtain ⟨reached, rfl, hoffers⟩ := h.cons (.field node)
  refine ⟨_, rfl, fun other hm => ?_⟩
  rcases List.mem_cons.mp hm with rfl | hm
  · exact ⟨.field other, List.mem_cons_self, .field other⟩
  · exact hoffers other hm

/-- A fragment that applies offers what its selections do. -/
theorem fragment {front : List Selection} (h : flattened.OfferedBy env type (front ++ rest))
    {first : Selection} (hfirst : ∀ {selection node}, selection ∈ front →
      selection.Offers env type node → first.Offers env type node) :
    flattened.OfferedBy env type (first :: rest) := by
  obtain ⟨reached, hreached, hoffers⟩ := h
  refine ⟨reached, hreached, fun node hm => ?_⟩
  obtain ⟨selection, hs, ho⟩ := hoffers node hm
  rcases List.mem_append.mp hs with hs | hs
  · exact ⟨first, List.mem_cons_self, hfirst hs ho⟩
  · exact ⟨selection, List.mem_cons_of_mem _ hs, ho⟩

end Flattened.OfferedBy

theorem flatten_known (visited : List String) (work : List Selection)
    (hk : ∀ selection ∈ work, selection.Known env) :
    (flatten env.schema env.document env.context type visited work).OfferedBy env type work := by
  induction visited, work using flatten.induct env.schema env.document env.context type with
  | case1 visited =>
    rw [flatten]
    exact ⟨_, rfl, List.forall_mem_nil _⟩
  | case2 visited node rest hi ih =>
    rw [flatten_field hi]
    exact (ih (List.forall_mem_cons.mp hk).2).field node
  | case3 visited node rest hi ih =>
    rw [flatten, if_neg hi]
    exact (ih (List.forall_mem_cons.mp hk).2).cons _
  | case4 visited condition directives selections rest hi raised ha =>
    cases hk _ List.mem_cons_self with
    | inline hc each => exact absurd ha (appliesIfAny_of_visible hc raised)
  | case5 visited condition directives selections rest hi ha ih =>
    obtain ⟨hfirst, hrest⟩ := List.forall_mem_cons.mp hk
    cases hfirst with
    | inline hc each =>
      rw [flatten, if_pos hi, ha]
      exact (ih (List.forall_mem_append.mpr ⟨each, hrest⟩)).fragment fun hm ho => .inline ha hm ho
  | case6 visited condition directives selections rest hi ha ih =>
    rw [flatten, if_pos hi, ha]
    exact (ih (List.forall_mem_cons.mp hk).2).cons _
  | case7 visited condition directives selections rest hi ih =>
    rw [flatten, if_neg hi]
    exact (ih (List.forall_mem_cons.mp hk).2).cons _
  | case8 visited name directives rest hf =>
    cases hk _ List.mem_cons_self with
    | spread hfound hc each => cases hf.symm.trans hfound
  | case9 visited name directives rest fragment hf hv ih =>
    rw [flatten_spread hf, if_pos hv]
    exact (ih (List.forall_mem_cons.mp hk).2).cons _
  | case10 visited name directives rest fragment hf hv hi raised ha =>
    cases hk _ List.mem_cons_self with
    | spread hfound hc each =>
      obtain rfl := Option.some.inj (hf.symm.trans hfound)
      exact absurd ha (applies_of_visible hc raised)
  | case11 visited name directives rest fragment hf hv hi ha ih =>
    obtain ⟨hfirst, hrest⟩ := List.forall_mem_cons.mp hk
    cases hfirst with
    | spread hfound hc each =>
      obtain rfl := Option.some.inj (hf.symm.trans hfound)
      rw [flatten_spread hf, if_neg hv, if_pos hi, ha]
      exact (ih (List.forall_mem_append.mpr ⟨each, hrest⟩)).fragment fun hm ho =>
        .spread hf ha hm ho
  | case12 visited name directives rest fragment hf hv hi ha ih =>
    rw [flatten_spread hf, if_neg hv, if_pos hi, ha]
    exact (ih (List.forall_mem_cons.mp hk).2).cons _
  | case13 visited name directives rest fragment hf hv hi ih =>
    rw [flatten_spread hf, if_neg hv, if_neg hi]
    exact (ih (List.forall_mem_cons.mp hk).2).cons _

/-- The groups of valid selections have fields of the type, and their selections are valid below
them. -/
theorem collect_valid {selections : List Selection}
    (h : env.Valid type {selection | selection ∈ selections}) :
    ∃ groups, collect env.schema env.document env.context type selections = .ok groups ∧
      ∀ group ∈ groups, env.Offers type {selection | selection ∈ selections} group.node ∧
        ∃ found, env.schema.field? type group.node.name = some found ∧ ∀ definition,
          env.schema.visibleType? env.context found.definition.type.baseName = some definition →
            env.Valid definition {selection | selection ∈ group.selections} := by
  cases h with
  | intro known fields each =>
    obtain ⟨reached, hreached, hoffers⟩ := flatten_known [] selections known
    rw [collect_eq_flatten, hreached]
    refine ⟨_, rfl, fun group hg => ?_⟩
    have hnodes : ∀ node ∈ group.nodes, node ∈ reached.1 ∧ node.responseKey = group.key := by
      rw [FieldGroup.nodes_of_mem hg]
      simp
    obtain ⟨hfirst, hkey⟩ := hnodes group.node List.mem_cons_self
    obtain ⟨found, hf⟩ := fields group.node (hoffers _ hfirst)
    refine ⟨hoffers _ hfirst, found, hf, fun definition hv => ?_⟩
    refine (each group.node (hoffers _ hfirst) found hf definition hv).mono fun selection hm => ?_
    obtain ⟨node, hn, hs⟩ := List.mem_flatMap.mp hm
    obtain ⟨hreach, hk⟩ := hnodes node hn
    exact ⟨node, hoffers node hreach, hk.trans hkey.symm, hs⟩

end Gathering

end GraphQL
