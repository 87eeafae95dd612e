import GraphQL.Proofs.Following
import GraphQL.Proofs.Unfolding
import Mathlib.Data.List.Chain

/-!
# The turns of gathering

Fragments may spread each other in a circle; gathering ends all the same. Each turn uses up one of
the selections that the request and its fragments have, as those of a fragment are put to work only
once. So the turns are bounded by how many selections there are, no name is followed twice, and a
node is added only where everything on the way to it takes part.
-/

namespace GraphQL

namespace Gathering

section Turns

variable (schema : Schema) (document : Document) (context : Context) (runtimeType : TypeDef)

/-- Gathering ends at a point: the turn there raises a fault, or nothing is left. -/
inductive Ends : Point → Except Fault (List FieldGroup) → Prop where
  | fault {point : Point} {raised : Fault}
      (h : turn schema document context runtimeType point = .error raised) :
      Ends point (.error raised)
  | finished {point : Point}
      (h : turn schema document context runtimeType point = .ok .finished) :
      Ends point (.ok point.groups)

/-- The turn at a point enters the fragment of this name. -/
def Follows (name : String) (point : Point) : Prop := ∃ directives rest condition next,
  point.work = .spread name directives :: rest ∧
  turn schema document context runtimeType point = .ok (.entered condition next)

end Turns

variable {schema : Schema} {document : Document} {context : Context} {runtimeType : TypeDef}
  {point next : Point}

section Bound

/-- The number of selections that can still be put to work: those that are left, and those of the
fragments that can be followed. -/
def Point.supply (document : Document) (point : Point) : Nat :=
  Selection.weights
    (point.work ++ (unvisited document point.visited).flatMap FragmentDef.selections)

/-- Leaving a fragment out takes its selections away. -/
theorem weights_filter_le {p : FragmentDef → Bool} {fragments : List FragmentDef}
    {fragment : FragmentDef} (hm : fragment ∈ fragments) (hp : p fragment = false) :
    Selection.weights fragment.selections +
      Selection.weights ((fragments.filter p).flatMap FragmentDef.selections) ≤
      Selection.weights (fragments.flatMap FragmentDef.selections) := by
  have hfilter : ∀ fragments : List FragmentDef,
      Selection.weights ((fragments.filter p).flatMap FragmentDef.selections) ≤
        Selection.weights (fragments.flatMap FragmentDef.selections) := by
    intro fragments
    induction fragments with
    | nil => exact le_rfl
    | cons first rest ih =>
      rw [List.filter_cons]
      split <;> simp only [List.flatMap_cons, Selection.weights_append] <;> omega
  induction fragments with
  | nil => cases hm
  | cons first rest ih =>
    rcases List.mem_cons.mp hm with rfl | hm
    · have hrest := hfilter rest
      rw [List.filter_cons_of_neg (by simp [hp]), List.flatMap_cons, Selection.weights_append]
      omega
    · have hrest := ih hm
      rw [List.filter_cons]
      split <;> simp only [List.flatMap_cons, Selection.weights_append] <;> omega

/-- A fragment that is followed is taken from those that can be followed. -/
theorem weights_unvisited_le {visited : List String} {name : String} {fragment : FragmentDef}
    (hf : document.fragment? name = some fragment) (hv : visited.contains name = false) :
    Selection.weights fragment.selections +
      Selection.weights ((unvisited document (name :: visited)).flatMap FragmentDef.selections) ≤
      Selection.weights ((unvisited document visited).flatMap FragmentDef.selections) := by
  have hname : fragment.name = name := by simpa [Named.name] using List.find?_some hf
  have hm : fragment ∈ unvisited document visited := by
    rw [unvisited, List.mem_filter]
    exact ⟨List.mem_of_find?_eq_some hf, by rw [hname, hv]; rfl⟩
  have hfilter : unvisited document (name :: visited) =
      (unvisited document visited).filter fun fragment => fragment.name != name := by
    simp only [unvisited, List.filter_filter]
    refine List.filter_congr fun other _ => ?_
    by_cases hsame : other.name = name <;> simp [hsame]
  have hout : (fragment.name != name) = false := by simp [hname]
  rw [hfilter]
  exact @weights_filter_le (fun other => other.name != name) _ fragment hm hout

/-- A turn uses up a selection. -/
theorem Advance.supply_lt (h : Advance schema document context runtimeType point next) :
    next.supply document < point.supply document := by
  cases h with
  | added | omitted =>
    rw [Point.supply, Point.supply, List.cons_append]
    exact weights_lt_cons _ _
  | opened =>
    rw [Point.supply, Point.supply, List.cons_append, List.append_assoc]
    exact weights_append_lt _ (weights_lt_inline _ _ _)
  | followed found fresh =>
    have hle := weights_unvisited_le found fresh
    simp only [Point.supply, Selection.weights_append, Selection.weights, Selection.weight]
    omega
  | dismissed found fresh =>
    have hle := weights_unvisited_le found fresh
    simp only [Point.supply, Selection.weights_append, Selection.weights, Selection.weight]
    omega

theorem length_turns_le {points : List Point}
    (h : (point :: points).IsChain (Steps schema document context runtimeType)) :
    points.length ≤ point.supply document := by
  induction points generalizing point with
  | nil => exact Nat.zero_le _
  | cons next rest ih =>
    obtain ⟨hstep, hrest⟩ := List.isChain_cons_cons.mp h
    have hlt := hstep.advance.supply_lt
    have hle := ih hrest
    rw [List.length_cons]
    omega

/-- The turns come to an end, and what they come to is gathered. -/
theorem exists_turns (point : Point) : ∃ points last,
    (point :: points).IsChain (Steps schema document context runtimeType) ∧
    (point :: points).getLast? = some last ∧
    Ends schema document context runtimeType last
      (gatherFrom schema document context runtimeType point) := by
  induction point using Point.induction schema document context runtimeType with
  | step point ih =>
    rw [gatherFrom_eq]
    cases ht : turn schema document context runtimeType point with
    | error raised => exact ⟨[], point, .singleton _, rfl, .fault ht⟩
    | ok turned =>
      cases hn : turned.next? with
      | none =>
        cases turned with
        | finished => exact ⟨[], point, .singleton _, rfl, .finished ht⟩
        | added _ next | entered _ next | omitted next => cases hn
      | some next =>
        obtain ⟨points, last, hchain, hlast, hends⟩ := ih turned next ht hn
        refine ⟨next :: points, last, List.isChain_cons_cons.mpr ⟨⟨turned, ht, hn⟩, hchain⟩, ?_, ?_⟩
        · rwa [List.getLast?_cons_cons]
        · simpa only [hn] using hends

end Bound

section Once

theorem Advance.visited_subset (h : Advance schema document context runtimeType point next) :
    point.visited ⊆ next.visited := by
  cases h with
  | added | opened | omitted => exact List.Subset.refl _
  | followed | dismissed => exact List.subset_cons_self _ _

/-- A fragment is followed where it has not been followed, and then it has. -/
theorem Follows.fresh {name : String}
    (h : Follows schema document context runtimeType name point) :
    name ∉ point.visited ∧ ∀ next, Steps schema document context runtimeType point next →
      name ∈ next.visited := by
  obtain ⟨directives, rest, condition, entered, hw, ht⟩ := h
  obtain ⟨visited, groups, work⟩ := point
  obtain rfl : work = .spread name directives :: rest := hw
  have hsplit : visited.contains name = false ∧ entered.visited = name :: visited := by
    simp only [turn, turnOn] at ht
    split at ht
    · cases ht
    · split at ht
      · cases ht
      · next hv =>
        split at ht
        · split at ht <;> cases ht
          exact ⟨by simpa using hv, rfl⟩
        · cases ht
  refine ⟨by simpa using hsplit.1, fun next hs => ?_⟩
  obtain ⟨turned, hturned, hn⟩ := hs
  cases ht.symm.trans hturned
  obtain rfl := Option.some.inj hn
  exact hsplit.2 ▸ List.mem_cons_self

/-- A name is followed at most once. -/
theorem pairwise_follows {points : List Point}
    (h : points.IsChain (Steps schema document context runtimeType)) (name : String) :
    points.Pairwise fun first second =>
      Follows schema document context runtimeType name first →
        ¬ Follows schema document context runtimeType name second := by
  let Later : Point → Point → Prop := fun first second =>
    (Follows schema document context runtimeType name first → name ∈ second.visited) ∧
      first.visited ⊆ second.visited
  have : IsTrans Point Later := ⟨fun _ _ _ hab hbc =>
    ⟨fun hf => hbc.2 (hab.1 hf), List.Subset.trans hab.2 hbc.2⟩⟩
  have hchain : points.IsChain Later := h.imp fun first second hs =>
    ⟨fun hf => hf.fresh.2 second hs, hs.advance.visited_subset⟩
  exact (List.isChain_iff_pairwise.mp hchain).imp fun hlater hfirst hsecond =>
    hsecond.fresh.1 (hlater.1 hfirst)

end Once

section Ways

variable (schema document context runtimeType)

/-- A way from a selection to a field node on which everything takes part. -/
inductive Leads : Spot × Selection → Spot × FieldNode → Prop where
  | field {spot : Spot} {node : FieldNode}
      (included : shouldInclude schema context.bindings node.directives = true) :
      Leads (spot, .field node) (spot, node)
  | inline {spot : Spot} {condition : Option String} {directives : List Directive}
      {selections : List Selection} {inner : Spot × Selection} {entry : Spot × FieldNode}
      (included : shouldInclude schema context.bindings directives = true)
      (applies : appliesIfAny schema context condition runtimeType = .ok true)
      (there : inner ∈ spot.locate selections) (rest : Leads inner entry) :
      Leads (spot, .inline condition directives selections) entry
  | spread {spot : Spot} {name : String} {directives : List Directive} {fragment : FragmentDef}
      {inner : Spot × Selection} {entry : Spot × FieldNode}
      (included : shouldInclude schema context.bindings directives = true)
      (found : document.fragment? name = some fragment)
      (applies : applies schema context fragment.condition runtimeType = .ok true)
      (there : inner ∈ Spot.locate { fragment := some name } fragment.selections)
      (rest : Leads inner entry) :
      Leads (spot, .spread name directives) entry

/-- A way leads to the field node from one of the selections. -/
def Reached (work : List (Spot × Selection)) (entry : Spot × FieldNode) : Prop :=
  ∃ first ∈ work, Leads schema document context runtimeType first entry

/-- Groups that have gained only nodes to which a way leads. -/
def Traced (work : List (Spot × Selection)) (groups later : List FieldGroup) : Prop :=
  ∃ entries : List (Spot × FieldNode), later = FieldGroup.addAll (entries.map Prod.snd) groups ∧
    ∀ entry ∈ entries, Reached schema document context runtimeType work entry

variable {schema document context runtimeType}
variable {first : Spot × Selection} {work inner : List (Spot × Selection)} {entry : Spot × FieldNode}

theorem Reached.behind (h : Reached schema document context runtimeType work entry) :
    Reached schema document context runtimeType (first :: work) entry := by
  obtain ⟨other, ho, hleads⟩ := h
  exact ⟨other, List.mem_cons_of_mem _ ho, hleads⟩

/-- What the selections of a fragment lead to, the fragment leads to. -/
theorem Reached.within (h : Reached schema document context runtimeType (inner ++ work) entry)
    (hinner : ∀ other ∈ inner, Leads schema document context runtimeType other entry →
      Leads schema document context runtimeType first entry) :
    Reached schema document context runtimeType (first :: work) entry := by
  obtain ⟨other, ho, hleads⟩ := h
  rcases List.mem_append.mp ho with ho | ho
  · exact ⟨first, List.mem_cons_self, hinner other ho hleads⟩
  · exact ⟨other, List.mem_cons_of_mem _ ho, hleads⟩

theorem Traced.imp {groups later : List FieldGroup}
    (h : Traced schema document context runtimeType inner groups later)
    (himp : ∀ entry, Reached schema document context runtimeType inner entry →
      Reached schema document context runtimeType work entry) :
    Traced schema document context runtimeType work groups later := by
  obtain ⟨entries, hlater, hreached⟩ := h
  exact ⟨entries, hlater, fun entry he => himp entry (hreached entry he)⟩

/-- What a turn leaves to do is led to by what there was to do before it. -/
theorem Advance.traced (h : Advance schema document context runtimeType point next)
    (hw : point.work = work.map Prod.snd) : ∃ left : List (Spot × Selection),
      next.work = left.map Prod.snd ∧
      ∀ later, Traced schema document context runtimeType left next.groups later →
        Traced schema document context runtimeType work point.groups later := by
  obtain ⟨visited, groups, selections⟩ := point
  obtain rfl : selections = work.map Prod.snd := hw
  cases work with
  | nil => cases h
  | cons first work =>
    obtain ⟨spot, selection⟩ := first
    cases h with
    | @added _ _ node _ included =>
      refine ⟨work, rfl, fun later ⟨entries, hlater, hreached⟩ => ?_⟩
      refine ⟨(spot, node) :: entries, hlater, fun entry he => ?_⟩
      rcases List.mem_cons.mp he with rfl | he
      · exact ⟨_, List.mem_cons_self, .field included⟩
      · exact (hreached entry he).behind
    | @opened _ _ condition directives selections _ included applies =>
      refine ⟨spot.locate selections ++ work, by rw [List.map_append, Spot.locate_snd],
        fun later ht => ht.imp fun entry he => he.within fun _ ho hleads => ?_⟩
      exact .inline included applies ho hleads
    | @followed _ _ name directives fragment _ found fresh included applies =>
      refine ⟨Spot.locate { fragment := some name } fragment.selections ++ work,
        by rw [List.map_append, Spot.locate_snd],
        fun later ht => ht.imp fun entry he => he.within fun _ ho hleads => ?_⟩
      exact .spread included found applies ho hleads
    | dismissed | omitted =>
      exact ⟨work, rfl, fun later ht => ht.imp fun entry he => he.behind⟩

/-- The groups gain only nodes to which the work leads. -/
theorem traced_gatherFrom {groups : List FieldGroup} (hw : point.work = work.map Prod.snd)
    (h : gatherFrom schema document context runtimeType point = .ok groups) :
    Traced schema document context runtimeType work point.groups groups := by
  induction point using Point.induction schema document context runtimeType generalizing work with
  | step point ih =>
    rw [gatherFrom_eq] at h
    cases ht : turn schema document context runtimeType point with
    | error raised => simp [ht] at h
    | ok turned =>
      cases hn : turned.next? with
      | none =>
        simp only [ht, hn, Except.ok.injEq] at h
        exact ⟨[], h.symm, fun _ hm => absurd hm List.not_mem_nil⟩
      | some next =>
        simp only [ht, hn] at h
        obtain ⟨left, hleft, htraced⟩ := (Steps.advance ⟨turned, ht, hn⟩).traced hw
        exact htraced groups (ih turned next ht hn hleft h)

end Ways

end Gathering

end GraphQL
