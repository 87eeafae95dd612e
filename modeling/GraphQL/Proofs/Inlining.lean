import GraphQL.Proofs.Acyclic
import GraphQL.Execution.Executor

/-!
# Compiled requests

A request can be rid of its named fragments and of its conditions before it is executed: an inline
fragment takes the place of every spread, and selections that are excluded are deleted, together
with all directives. The conditions of an operation can be decided in advance since its variables
keep their values; whether a fragment applies depends on the runtime type and stays open. Where every
spread names a fragment and none leads back to itself, no spread and no directive is left.
-/

namespace GraphQL

namespace Selection

section Inlined

-- The condition and the selections that stand for a fragment of a name.
variable (body : String → Option (String × List Selection))

mutual

/-- The selection with an inline fragment in place of every spread. -/
def inlined : Selection → Selection
  | field ⟨aliasName, name, arguments, directives, selections, position⟩ =>
    field ⟨aliasName, name, arguments, directives, inlinedAll selections, position⟩
  | inline condition directives selections => inline condition directives (inlinedAll selections)
  | spread name directives =>
    match body name with
    | some (condition, selections) => inline (some condition) directives selections
    | none => spread name directives

def inlinedAll : List Selection → List Selection
  | [] => []
  | selection :: rest => inlined selection :: inlinedAll rest

end

theorem inlinedAll_eq (selections : List Selection) :
    inlinedAll body selections = selections.map (inlined body) := by
  induction selections with
  | nil => rfl
  | cons selection rest ih => rw [inlinedAll, ih, List.map_cons]

end Inlined

section Decided

variable (schema : Schema) (bindings : Members Json)

mutual

/-- The selection without the selections that are excluded and without directives; nothing if it is
excluded itself. -/
def decided : Selection → List Selection
  | field ⟨aliasName, name, arguments, directives, selections, position⟩ =>
    if shouldInclude schema bindings directives then
      [field ⟨aliasName, name, arguments, [], decidedAll selections, position⟩]
    else []
  | inline condition directives selections =>
    if shouldInclude schema bindings directives then
      [inline condition [] (decidedAll selections)]
    else []
  | spread name directives =>
    if shouldInclude schema bindings directives then [spread name []] else []

def decidedAll : List Selection → List Selection
  | [] => []
  | selection :: rest => decided selection ++ decidedAll rest

end

theorem decidedAll_eq (selections : List Selection) :
    decidedAll schema bindings selections = selections.flatMap (decided schema bindings) := by
  induction selections with
  | nil => rfl
  | cons selection rest ih => rw [decidedAll, ih, List.flatMap_cons]

end Decided

/-- Only the fragments that a selection mentions matter. -/
theorem inlined_congr {body other : String → Option (String × List Selection)}
    {selection : Selection} (h : ∀ name, selection.Mentions name → body name = other name) :
    selection.inlined body = selection.inlined other := by
  have hall : ∀ selections : List Selection,
      (∀ inner ∈ selections, inner.inlined body = inner.inlined other) →
        inlinedAll body selections = inlinedAll other selections := by
    intro selections hs
    rw [inlinedAll_eq, inlinedAll_eq]
    exact List.map_congr_left hs
  induction selection with
  | field node ih =>
    have hnode := hall node.selections fun inner hi =>
      ih inner hi fun name hn => h name (.field hi hn)
    rw [inlined, inlined, hnode]
  | inline condition directives selections ih =>
    have hselections := hall selections fun inner hi =>
      ih inner hi fun name hn => h name (.inline hi hn)
    rw [inlined, inlined, hselections]
  | spread name directives => rw [inlined, inlined, h name (.spread directives)]

end Selection

namespace Document

variable (document : Document)

/-- What stands for the fragment of a name, with the fragments inside of it inlined up to a
depth. -/
def body : Nat → String → Option (String × List Selection)
  | 0, _ => none
  | depth + 1, name => (document.fragment? name).map fun fragment =>
    (fragment.condition, Selection.inlinedAll (body depth) fragment.selections)

/-- Selections with inline fragments in place of all spreads. In an acyclic document no more
fragments lie inside each other than there are. -/
def inlined (selections : List Selection) : List Selection :=
  Selection.inlinedAll (document.body document.fragments.length) selections

/-- Selections without named fragments and conditions. -/
def compiled (schema : Schema) (bindings : Members Json) (selections : List Selection) :
    List Selection :=
  Selection.decidedAll schema bindings (document.inlined selections)

end Document

/-- The operation of a request without named fragments and conditions. -/
def Operation.compiled (operation : Operation) (document : Document) (schema : Schema)
    (context : Context) : Operation :=
  let bindings := (operation.withDefaults context).bindings
  { operation with selections := document.compiled schema bindings operation.selections }

/-- The request without named fragments and conditions. -/
def Request.compiled (request : Request) (schema : Schema) : Request :=
  let operations := request.document.operations.map fun operation =>
    operation.compiled request.document schema request.context
  { request with document := { operations } }

section Unchanged

variable (operation : Operation) (document : Document) (request : Request) (schema : Schema)
  (context : Context)

@[simp] theorem Operation.compiled_name :
    (operation.compiled document schema context).name = operation.name := rfl

@[simp] theorem Operation.compiled_kind :
    (operation.compiled document schema context).kind = operation.kind := rfl

@[simp] theorem Operation.compiled_withDefaults :
    (operation.compiled document schema context).withDefaults = operation.withDefaults := rfl

@[simp] theorem Request.compiled_operationName :
    (request.compiled schema).operationName = request.operationName := rfl

@[simp] theorem Request.compiled_root : (request.compiled schema).root = request.root := rfl

@[simp] theorem Request.compiled_context :
    (request.compiled schema).context = request.context := rfl

end Unchanged

namespace Document

variable {document : Document}

/-- A depth suffices that is as large as the number of the fragments that do not lead to the one in
question. -/
theorem Acyclic.body_eq (h : document.Acyclic) (visited : List String) {name : String}
    (hv : ∀ other ∈ visited, Relation.TransGen document.Spreads other name) {depth more : Nat}
    (hd : (Gathering.unvisited document visited).length ≤ depth)
    (hm : (Gathering.unvisited document visited).length ≤ more) :
    document.body depth name = document.body more name := by
  generalize hcount : (Gathering.unvisited document visited).length = count at hd hm
  induction count using Nat.strongRecOn generalizing visited name depth more with
  | ind count ih =>
    cases hf : document.fragment? name with
    | none =>
      have hnone : ∀ depth, document.body depth name = none := by
        intro depth
        cases depth with
        | zero => rfl
        | succ depth => rw [body, hf, Option.map_none]
      rw [hnone, hnone]
    | some fragment =>
      have hlt := Gathering.unvisited_length_lt document hf (h.unvisited hv)
      obtain ⟨depth, rfl⟩ : ∃ less, depth = less + 1 := ⟨depth - 1, by omega⟩
      obtain ⟨more, rfl⟩ : ∃ less, more = less + 1 := ⟨more - 1, by omega⟩
      have hbody : ∀ other, document.Spreads name other →
          document.body depth other = document.body more other := by
        intro other hstep
        refine ih _ (hcount ▸ hlt) (name :: visited) (fun before hb => ?_) rfl (by omega) (by omega)
        rcases List.mem_cons.mp hb with rfl | hb
        · exact .single hstep
        · exact (hv before hb).tail hstep
      have hselections : Selection.inlinedAll (document.body depth) fragment.selections =
          Selection.inlinedAll (document.body more) fragment.selections := by
        rw [Selection.inlinedAll_eq, Selection.inlinedAll_eq]
        exact List.map_congr_left fun selection hs => Selection.inlined_congr fun other ho =>
          hbody other ⟨fragment, hf, selection, hs, ho⟩
      rw [body, body, hf, Option.map_some, Option.map_some, hselections]

/-- The body of a fragment of an acyclic document is its selections without spreads. -/
theorem Acyclic.body_fragment (h : document.Acyclic) {name : String} {fragment : FragmentDef}
    (hf : document.fragment? name = some fragment) :
    document.body document.fragments.length name =
      some (fragment.condition, document.inlined fragment.selections) := by
  have hall : (Gathering.unvisited document []).length = document.fragments.length := by
    simp [Gathering.unvisited]
  have hsame : document.body document.fragments.length name =
      document.body (document.fragments.length + 1) name :=
    h.body_eq [] (fun _ hm => absurd hm List.not_mem_nil) (Nat.le_of_eq hall) (hall ▸ Nat.le_succ _)
  rw [hsame, body, hf]
  rfl

section Compiled

variable (schema : Schema) (bindings : Members Json)

theorem compiled_append (xs ys : List Selection) :
    document.compiled schema bindings (xs ++ ys) =
      document.compiled schema bindings xs ++ document.compiled schema bindings ys := by
  simp [compiled, inlined, Selection.inlinedAll_eq, Selection.decidedAll_eq]

theorem compiled_flatMap {α : Type} (f : α → List Selection) (xs : List α) :
    document.compiled schema bindings (xs.flatMap f) =
      xs.flatMap fun x => document.compiled schema bindings (f x) := by
  induction xs with
  | nil => rfl
  | cons x xs ih => rw [List.flatMap_cons, compiled_append, ih, List.flatMap_cons]

/-- A field without conditions and named fragments inside. -/
def compiledNode (document : Document) (schema : Schema) (bindings : Members Json)
    (node : FieldNode) : FieldNode :=
  { node with directives := [], selections := document.compiled schema bindings node.selections }

/-- Selections are compiled one by one. -/
theorem compiled_each (selections : List Selection) :
    document.compiled schema bindings selections =
      selections.flatMap fun selection => document.compiled schema bindings [selection] := by
  rw [← compiled_flatMap, List.flatMap_singleton']

theorem compiled_field (node : FieldNode) :
    document.compiled schema bindings [.field node] =
      if shouldInclude schema bindings node.directives then
        [.field (document.compiledNode schema bindings node)]
      else [] := by
  rw [compiled, inlined, Selection.inlinedAll, Selection.inlinedAll, Selection.inlined,
    Selection.decidedAll, Selection.decidedAll, Selection.decided, List.append_nil]
  rfl

theorem compiled_inline (condition : Option String) (directives : List Directive)
    (selections : List Selection) :
    document.compiled schema bindings [.inline condition directives selections] =
      if shouldInclude schema bindings directives then
        [.inline condition [] (document.compiled schema bindings selections)]
      else [] := by
  rw [compiled, inlined, Selection.inlinedAll, Selection.inlinedAll, Selection.inlined,
    Selection.decidedAll, Selection.decidedAll, Selection.decided, List.append_nil]
  rfl

/-- A spread counts as an inline fragment with what the fragment holds. -/
theorem Acyclic.compiled_spread (h : document.Acyclic) {name : String} {fragment : FragmentDef}
    (hf : document.fragment? name = some fragment) (directives : List Directive) :
    document.compiled schema bindings [.spread name directives] =
      document.compiled schema bindings
        [.inline (some fragment.condition) directives fragment.selections] := by
  rw [compiled, compiled, inlined, inlined, Selection.inlinedAll, Selection.inlinedAll,
    Selection.inlined, Selection.inlinedAll, Selection.inlined, h.body_fragment hf]
  rfl

end Compiled

/-- Every spread in the selection names a fragment. -/
def Defines (document : Document) (selection : Selection) : Prop :=
  ∀ name, selection.Mentions name → ∃ fragment, document.fragment? name = some fragment

/-- Every spread in the document names a fragment. -/
structure Closed (document : Document) : Prop where
  operations : ∀ operation ∈ document.operations, ∀ selection ∈ operation.selections,
    document.Defines selection
  fragments : ∀ fragment ∈ document.fragments, ∀ selection ∈ fragment.selections,
    document.Defines selection

section Fragments

variable {name : String} {fragment : FragmentDef}
  (hf : document.fragment? name = some fragment)

include hf

theorem mem_fragments : fragment ∈ document.fragments := List.mem_of_find?_eq_some hf

theorem Closed.defines_fragment (h : document.Closed) :
    ∀ selection ∈ fragment.selections, document.Defines selection :=
  h.fragments fragment (mem_fragments hf)

end Fragments

end Document

/-- A selection without spreads and without directives. -/
inductive Selection.Bare : Selection → Prop where
  | field {node : FieldNode} (directives : node.directives = [])
      (each : ∀ selection ∈ node.selections, Bare selection) : Bare (.field node)
  | inline (condition : Option String) {selections : List Selection}
      (each : ∀ selection ∈ selections, Bare selection) : Bare (.inline condition [] selections)

namespace Document

variable {document : Document} (schema : Schema) (bindings : Members Json)

theorem bare_of_each {selections : List Selection}
    (h : ∀ selection ∈ selections, ∀ compiled ∈ document.compiled schema bindings [selection],
      compiled.Bare) :
    ∀ compiled ∈ document.compiled schema bindings selections, compiled.Bare := by
  intro compiled hm
  rw [compiled_each] at hm
  obtain ⟨selection, hselection, hcompiled⟩ := List.mem_flatMap.mp hm
  exact h selection hselection compiled hcompiled

/-- Nothing is left of the spreads and of the directives of a selection. -/
theorem Closed.bare_compiled (hclosed : document.Closed) (hacyclic : document.Acyclic)
    {selection : Selection} (hd : document.Defines selection) :
    ∀ compiled ∈ document.compiled schema bindings [selection], compiled.Bare := by
  induction selection using hacyclic.induction with
  | field node ih =>
    intro compiled hm
    rw [compiled_field] at hm
    split at hm
    · obtain rfl := List.mem_singleton.mp hm
      refine .field rfl (bare_of_each schema bindings fun inner hi => ih inner hi ?_)
      exact fun name hn => hd name (.field hi hn)
    · cases hm
  | inline condition directives selections ih =>
    intro compiled hm
    rw [compiled_inline] at hm
    split at hm
    · obtain rfl := List.mem_singleton.mp hm
      refine .inline _ (bare_of_each schema bindings fun inner hi => ih inner hi ?_)
      exact fun name hn => hd name (.inline hi hn)
    · cases hm
  | spread name directives ih =>
    obtain ⟨fragment, hf⟩ := hd name (.spread directives)
    intro compiled hm
    rw [hacyclic.compiled_spread schema bindings hf, compiled_inline] at hm
    split at hm
    · obtain rfl := List.mem_singleton.mp hm
      refine .inline _ (bare_of_each schema bindings fun inner hi => ih fragment hf inner hi ?_)
      exact hclosed.defines_fragment hf inner hi
    · cases hm

theorem Closed.bare_operations {request : Request} (hclosed : request.document.Closed)
    (hacyclic : request.document.Acyclic) :
    ∀ operation ∈ (request.compiled schema).document.operations,
      ∀ selection ∈ operation.selections, selection.Bare := by
  intro operation hm
  obtain ⟨original, horiginal, rfl⟩ := List.mem_map.mp hm
  exact bare_of_each schema _ fun selection hs => hclosed.bare_compiled schema _ hacyclic
    (hclosed.operations original horiginal selection hs)

end Document

end GraphQL
