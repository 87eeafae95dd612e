import GraphQL.Proofs.Discipline
import GraphQL.Schema.Builtin

/-!
# Termination

Neither the data nor the types bound an execution: a resolver may return its own parent, and a type
may have a field of its own type. What bounds it is how deep objects lie inside each other once
fragments are followed, below that the wrappers of each declared type, and below that the elements
of each list; the introspection fields are completed like all others. So the requests of acyclic
documents come to an end, whatever the schema, the root value and the resolvers are, and call only so
many resolvers and authorizers. That a resolver returns, and that a deferred value has a last stage,
is part of what they are.
-/

namespace GraphQL

/-- True if a resolver or an authorizer is called. -/
def Event.isCall : Event → Bool
  | called .. => true
  | authorized .. => true
  | _ => false

/-- How often resolvers and authorizers have been called. -/
def State.callCount (state : State) : Nat := state.events.countP Event.isCall

/-- True for the deed that notes a call. -/
def Deed.isCall : Deed → Bool
  | .note event => event.isCall
  | _ => false

namespace State

variable (state : State)

theorem callCount_perform (deed : Deed) :
    (state.perform deed).callCount = state.callCount + (if deed.isCall then 1 else 0) := by
  cases deed with
  | report errors => simp [callCount, Deed.isCall]
  | draw => simp [callCount, Deed.isCall]
  | declare path type => simp [callCount, Deed.isCall, Event.isCall]
  | write path entry propagating => simp [callCount, Deed.isCall, Event.isCall]
  | note event =>
    rw [callCount, events_note, List.countP_append, List.countP_singleton]
    rfl

theorem callCount_performAll (deeds : List Deed) :
    (state.performAll deeds).callCount = state.callCount + deeds.countP Deed.isCall := by
  induction deeds generalizing state with
  | nil => rfl
  | cons deed rest ih =>
    rw [performAll_cons, ih, callCount_perform, List.countP_cons]
    omega

end State

namespace Work

variable {env : Environment} {state : State} {piece : Work} {deeds : List Deed} {outcome : Task}

/-- Preparing a field calls its resolver, if it has one, and nothing else. -/
theorem countP_fieldDeeds (frame : ObjectFrame) (group : FieldGroup) (found : FieldLookup)
    (type : TypeRef) : (fieldDeeds env frame group found type).countP Deed.isCall ≤ 1 := by
  unfold fieldDeeds
  cases found with
  | introspection field => cases env.config.tracing <;> exact Nat.zero_le 1
  | ordinary definition =>
    cases env.registry.resolver? frame.type.name group.node.name with
    | none => cases env.config.tracing <;> exact Nat.zero_le 1
    | some entry => cases env.config.tracing <;> exact Nat.le_refl 1

/-- Completing a value calls the authorizer of its object type, if it has one, and nothing else. -/
theorem countP_shaped (site : Site) (shaped : Shaped) :
    (shaped.deeds env site).countP Deed.isCall ≤ 1 := by
  cases shaped with
  | null errors => simp [Shaped.deeds, Deed.isCall]
  | leaf output => simp [Shaped.deeds, Deed.isCall]
  | list itemType items =>
    have hnone : ∀ sites : List Site,
        (sites.map fun element => Deed.declare element.path element.type).countP Deed.isCall = 0 := by
      intro sites
      rw [List.countP_map]
      exact List.countP_eq_zero.mpr fun _ _ => Bool.false_ne_true
    rw [Shaped.deeds, List.countP_cons, hnone]
    simp [Deed.isCall]
  | object type value =>
    rw [Shaped.deeds, Shaped.asked]
    cases env.registry.authorizer? type.name <;> simp [Deed.isCall, Event.isCall]
  | fault raised => simp [Shaped.deeds]

/-- A step of work makes at most one call. -/
theorem Step.calls_le (h : Step env state piece deeds outcome) : deeds.countP Deed.isCall ≤ 1 := by
  cases h with
  | prepare | field => exact countP_fieldDeeds _ _ _ _
  | complete => exact countP_shaped _ _
  | _ => simp [Deed.isCall, Event.isCall]

theorem Prunes.calls_le (h : Prunes env state piece deeds outcome) :
    deeds.countP Deed.isCall ≤ 1 := by
  cases h <;> simp

end Work

namespace Machine

variable {env : Environment}

/-- A run makes at most as many calls as it takes steps. -/
theorem Run.callCount_le {steps : Nat} {first last : Machine} (h : Run env steps first last) :
    last.state.callCount ≤ first.state.callCount + steps := by
  induction h with
  | refl machine => exact Nat.le_refl _
  | advance move _ ih =>
    obtain ⟨_, _, _, deeds, _, _, _, _, hstate, hk⟩ := advance_account move
    have hle : deeds.countP Deed.isCall ≤ 1 := hk.elim Work.Step.calls_le Work.Prunes.calls_le
    rw [hstate, State.callCount_performAll] at ih
    omega
  | pass move _ ih =>
    obtain ⟨_, _, rfl⟩ := pass_eq move
    exact ih

/-- More moves than a machine needs change nothing. -/
theorem run_add {moves : Nat} {machine last : Machine} (h : machine.run env moves = some last)
    (more : Nat) : machine.run env (moves + more) = some last := by
  induction moves generalizing machine with
  | zero =>
    cases more with
    | zero => exact h
    | succ more =>
      simp only [run, Option.isNone_iff_eq_none] at h
      split at h
      · next hn => simpa [run, hn] using h
      · cases h
  | succ moves ih =>
    rw [Nat.add_right_comm]
    simp only [run] at h ⊢
    cases hn : machine.next? env with
    | none => simpa [hn] using h
    | some next =>
      rw [hn] at h
      exact ih h

end Machine

namespace Executor

theorem execute_add {executor : Executor} {schema : Schema} {request : Request} {moves : Nat}
    {result : Except Fault Execution}
    (h : executor.execute schema request moves = some result) (more : Nat) :
    executor.execute schema request (moves + more) = some result := by
  unfold execute at h ⊢
  cases hs : executor.start schema request with
  | error raised => simpa [hs] using h
  | ok started =>
    obtain ⟨env, machine⟩ := started
    rw [hs] at h
    obtain ⟨last, hrun, hresult⟩ := Option.bind_eq_some_iff.mp h
    exact Option.bind_eq_some_iff.mpr ⟨last, Machine.run_add hrun more, hresult⟩

/-- The request comes to a response or a fault, whatever order its work is done in. -/
structure Terminates (executor : Executor) (schema : Schema) (request : Request) : Prop where
  /-- No run takes more steps than this, or calls more resolvers and authorizers. -/
  bounded : ∃ bound, ∀ env machine steps last, executor.start schema request = .ok (env, machine) →
    Machine.Run env steps machine last → steps ≤ bound ∧ last.state.callCount ≤ bound
  /-- A run without a result so far takes one more step, at once or when time has passed. -/
  continues : ∀ env machine steps last, executor.start schema request = .ok (env, machine) →
    Machine.Run env steps machine last → last.result? = none → ∃ next, Machine.Run env 1 last next
  /-- The executor itself comes to the result of some run, and moving on does not change it. -/
  executes : ∃ moves result, executor.Reaches schema request result ∧
    ∀ more, executor.execute schema request (moves + more) = some result

/-- **Execution terminates.** The request of an acyclic document comes to an end for every schema,
root value and registry. -/
theorem execution_terminates (executor : Executor) (schema : Schema) (request : Request)
    (ha : request.document.Acyclic) : executor.Terminates schema request := by
  have hends : executor.Ends schema request := ends_of_acyclic ha
  constructor
  · cases hs : executor.start schema request with
    | error raised => exact ⟨0, fun _ _ _ _ he => nomatch he⟩
    | ok started =>
      obtain ⟨env, machine⟩ := started
      obtain ⟨bound, hb⟩ := (hends env machine hs).bounded
      refine ⟨bound, fun _ _ steps last he hrun => ?_⟩
      cases he
      have hfirst : machine.state.callCount = 0 := by
        obtain ⟨operation, rootType, -, rfl⟩ := start_ok hs
        rfl
      have hsteps := hb steps last hrun
      have hcalls := hrun.callCount_le
      exact ⟨hsteps, by omega⟩
  · intro env machine steps last hs hrun hnone
    exact (hends env machine hs).continues steps last hrun (Option.map_eq_none_iff.mp hnone)
  · obtain ⟨moves, result, hexecute⟩ := hends.execute
    exact ⟨moves, result, execute_reaches hexecute, execute_add hexecute⟩

end Executor

namespace Sample

/-- Users whose fields are users again, under many wrappers. -/
def kin : Schema where
  queryType := some "Query"
  types := [.object { name := "Query", fields := [{ name := "me", type := .required "User" }] },
    .object { name := "User", fields :=
      [{ name := "self", type := .required "User" },
        { name := "peers", type := .nonNull (.list (.list (.required "User"))) }] }] ++
      Schema.standard.types

/-- A resolver that gives back the parent. -/
def itself : Resolver where
  resolve parent _ _ _ := .ready (.value parent)

/-- A resolver that gives back the parent again and again, in two lists that settle one after the
other. -/
def copies : Resolver where
  resolve parent _ _ _ := .ready <|
    .list [.ready (.value (.arr [parent, parent])),
      .deferred [.pause 5] (.list [.ready (.value parent)])]

def kinship : Registry where
  resolvers := [("Query.me", itself), ("User.self", itself), ("User.peers", copies)] ++
    Registry.standard.resolvers
  fallback := some Property.resolver

/-- Selects a user of a user, and the type that a type wraps. -/
def circling : Request where
  document :=
    { operations := [{ selections :=
        [.field { name := "me", selections :=
            [.spread "Around" [], .field { name := "self", selections := [.spread "Around" []] }] },
          .field { name := "__type", arguments := [("name", .str "User")], selections :=
            [.field { name := "fields", selections :=
              [.field { name := "type", selections := [.spread "Inside" []] }] }] }] }]
      fragments :=
        [{ name := "Around", condition := "User", selections :=
            [.field { name := "peers", selections := [.field { name := "__typename" }] }] },
          { name := "Inside", condition := "__Type", selections :=
            [.field { name := "ofType", selections := [.field { name := "kind" }] }] }] }

theorem circling_acyclic : circling.document.Acyclic := by
  refine Document.acyclic_of_rank (fun _ => 0) ?_
  intro first second hspreads
  obtain ⟨fragment, hf, selection, hm, hmentions⟩ := hspreads
  have hfragment := List.mem_of_find?_eq_some hf
  simp only [circling, List.mem_cons, List.not_mem_nil, or_false] at hfragment
  rcases hfragment with rfl | rfl <;> obtain rfl := List.mem_singleton.mp hm
  · cases hmentions with
    | field hinner h =>
      obtain rfl := List.mem_singleton.mp hinner
      cases h with
      | field hnone => cases hnone
  · cases hmentions with
    | field hinner h =>
      obtain rfl := List.mem_singleton.mp hinner
      cases h with
      | field hnone => cases hnone

end Sample

namespace Executor

/-- The theorem where every resolver returns its own parent. -/
theorem circling_terminates :
    Executor.Terminates { registry := Sample.kinship } Sample.kin
      Sample.circling :=
  execution_terminates _ _ _ Sample.circling_acyclic

end Executor

end GraphQL
