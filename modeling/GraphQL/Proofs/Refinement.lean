import GraphQL.Proofs.Halting

/-!
# Refinement

Without pruning, a machine foretells one thing from the first move to the last, and that is what the
reference comes to. So whatever a run ends with, the data are those of the reference, the errors and
the calls are those of the reference in some order, and a fault is the reference's fault.
-/

namespace GraphQL

open Evaluation Strand

/-- Data in which the pending places come to nothing are as they are rendered. -/
theorem Slot.completed_absent (required : Path → Bool) (slot : Slot) (path : Path) :
    slot.completed required (fun _ => .absent) path =
      if slot.isPending then .absent else .value slot.render := by
  induction slot generalizing path with
  | pending => rfl
  | null => rfl
  | leaf value => rfl
  | object members ih =>
    have hmembers : Completed.members? (completedMembers required (fun _ => .absent) path members) =
        some (renderMembers members) := by
      induction members with
      | nil => rfl
      | cons member rest ihs =>
        obtain ⟨name, slot⟩ := member
        have hslot := ih (name, slot) List.mem_cons_self (path.key name)
        have hrest := ihs fun member hm => ih member (List.mem_cons_of_mem _ hm)
        rw [completedMembers, renderMembers, hslot]
        cases slot.isPending <;> simp [Completed.members?, hrest]
    simp [completed, Completed.object, hmembers, isPending, render]
  | list items ih =>
    have hitems : ∀ place,
        Completed.items? (completedItems required (fun _ => .absent) path place items) =
          some (renderItems items) := by
      induction items with
      | nil => exact fun _ => rfl
      | cons slot rest ihs =>
        intro place
        have hslot := ih slot List.mem_cons_self (path.index place)
        have hrest := ihs (fun item hm => ih item (List.mem_cons_of_mem _ hm)) (place + 1)
        rw [completedItems, renderItems, hslot]
        cases slot <;> simp [Completed.items?, isPending, render, hrest]
    simp [completed, Completed.list, hitems, isPending, render]

/-- Data that wait for nothing are as they are rendered. -/
theorem ResultTree.read_nil (tree : ResultTree) : (tree.read []).data = tree.data.render := by
  have h := tree.data.completed_absent tree.isRequired []
  have hget : Results.get tree.isRequired [] = fun _ => .absent := rfl
  rw [read, completed, hget, h]
  cases tree.data <;> rfl

def Execution.log (execution : Execution) : Log where
  errors := execution.response.errors
  calls := execution.history.flatMap fun entry => entry.2.calls

/-- What an execution has ended with, as an evaluation. -/
def Execution.answer : Except Fault Execution → Evaluation Json
  | .error raised => .fault raised
  | .ok execution => .done execution.response.data execution.log

theorem Execution.answer_finished (result : Except Fault Execution) :
    Execution.answer result ≠ .unfinished := by
  cases result <;> exact fun he => nomatch he

namespace Machine

variable {env : Environment} {machine first last : Machine} {steps : Nat}

/-- A machine that has ended foretells what it has ended with. -/
theorem forecast_ended (depth : Nat) {result : Except Fault Execution}
    (h : machine.result? = some result) :
    ((machine.forecast env depth).map Completed.data).Agrees Eq (Execution.answer result) := by
  obtain ⟨outcome, ho, rfl⟩ := Option.map_eq_some_iff.mp h
  obtain ⟨task, state⟩ := machine
  cases task with
  | work | serial | together => cases ho
  | fault raised =>
    obtain rfl := Option.some.inj ho
    exact .fault raised
  | done =>
    obtain rfl := Option.some.inj ho
    refine .done ?_ ⟨?_, ?_⟩
    · exact state.tree.read_nil
    · simpa [State.log, Execution.log, ResultTree.response, Response.sortErrors] using
        (List.mergeSort_perm _ _).symm
    · simp [State.log, Execution.log]

/-- A machine that has ended well has no work left, and its state tells the execution. -/
theorem execution_of_result {execution : Execution} (h : last.result? = some (.ok execution)) :
    last.task = .done ∧
      execution = { response := last.state.tree.response, elapsed := last.state.clock,
                    history := last.state.history.reverse } := by
  obtain ⟨outcome, ho, he⟩ := Option.map_eq_some_iff.mp h
  cases htask : last.task with
  | work | serial | together =>
    rw [htask] at ho
    cases ho
  | fault raised =>
    rw [htask] at ho
    obtain rfl := Option.some.inj ho
    cases he
  | done =>
    rw [htask] at ho
    obtain rfl := Option.some.inj ho
    exact ⟨rfl, (Except.ok.inj he).symm⟩

section Unpruned

variable (hp : env.config.pruneCollapsedSubtrees = false)

include hp

theorem forecast_advance {next : Machine} {address : Address} (hc : machine.Coherent env)
    (move : machine.perform? env (.advance address) = some next) (depth : Nat) :
    (machine.forecast env depth).Settles Eq (next.forecast env depth) ∧
      (next.forecast env depth).Settles Eq (machine.forecast env (depth + 1)) := by
  obtain ⟨left, piece, right, deeds, outcome, hs, -, ht, hstate, hk⟩ := advance_account move
  rcases hk with hk | hk
  · exact forecast_step hc hs ht hstate hk depth
  · cases hk <;> simp_all

/-- What a run comes to was foretold when it began. -/
theorem Run.foretold (h : Run env steps first last) (hc : first.Coherent env) (depth : Nat) :
    (first.forecast env depth).Settles Eq (last.forecast env depth) ∧
      ∃ more, (last.forecast env depth).Settles Eq (first.forecast env more) := by
  induction h with
  | refl machine => exact ⟨.refl _, depth, .refl _⟩
  | advance move _ ih =>
    obtain ⟨hforward, more, hbackward⟩ := ih (hc.advance move)
    refine ⟨(forecast_advance hp hc move depth).1.trans_eq hforward, more + 1, ?_⟩
    exact hbackward.trans_eq (forecast_advance hp hc move more).2
  | pass move _ ih =>
    obtain ⟨wake, -, rfl⟩ := pass_eq move
    exact ih hc

/-- What the machine foretells at any depth is what every run of it ends with. -/
theorem Run.ended (h : Run env steps first last) (hc : first.Coherent env)
    {result : Except Fault Execution} (hr : last.result? = some result) :
    (∃ depth, ((first.forecast env depth).map Completed.data).Agrees Eq (Execution.answer result)) ∧
      ∀ depth, ((first.forecast env depth).map Completed.data).Settles Eq
        (Execution.answer result) := by
  have hended : ∀ depth, ((last.forecast env depth).map Completed.data).Agrees Eq
      (Execution.answer result) := fun depth => forecast_ended depth hr
  constructor
  · obtain ⟨-, depth, hbackward⟩ := Run.foretold hp h hc 0
    refine ⟨depth, ?_⟩
    have hfinished := (hended 0).symm_eq.finished (Execution.answer_finished result)
    exact ((hbackward.map fun _ _ he => congrArg _ he) hfinished).symm_eq.trans_eq (hended 0)
  · intro depth
    obtain ⟨hforward, -⟩ := Run.foretold hp h hc depth
    exact (hforward.map fun _ _ he => congrArg _ he).trans_eq (hended depth).settles

end Unpruned

end Machine

namespace Executor

/-- `executor.Reaches schema request result`: some run of the request ends with the result. -/
inductive Reaches (executor : Executor) (schema : Schema) (request : Request) :
    Except Fault Execution → Prop where
  | refused {raised : Fault} (hs : executor.start schema request = .error raised) :
      Reaches executor schema request (.error raised)
  | ended {env : Environment} {machine last : Machine} {steps : Nat}
      {result : Except Fault Execution}
      (hs : executor.start schema request = .ok (env, machine))
      (hr : Machine.Run env steps machine last) (he : last.result? = some result) :
      Reaches executor schema request result

/-- Every run of the request ends. -/
def Ends (executor : Executor) (schema : Schema) (request : Request) : Prop :=
  ∀ env machine, executor.start schema request = .ok (env, machine) → machine.Ends env

variable {executor : Executor} {schema : Schema} {request : Request}

/-- The environment in which the selections of an operation are executed. -/
def environment (executor : Executor) (schema : Schema) (request : Request)
    (operation : Operation) : Environment where
  schema := schema
  document := request.document
  registry := executor.registry
  config := executor.config
  context := operation.withDefaults request.context

theorem start_eq : executor.start schema request =
    match request.document.operation? request.operationName with
    | .error raised => .error raised
    | .ok operation =>
      match schema.rootType (operation.withDefaults request.context) operation.kind with
      | .error raised => .error raised
      | .ok rootType => .ok (executor.environment schema request operation,
          .start operation rootType request.root) := by
  unfold start
  cases request.document.operation? request.operationName with
  | error raised => rfl
  | ok operation =>
    dsimp only [Bind.bind, Except.bind]
    cases schema.rootType (operation.withDefaults request.context) operation.kind <;> rfl

/-- The operation and the type of the root of a request that starts. -/
theorem start_found {env : Environment} {machine : Machine}
    (h : executor.start schema request = .ok (env, machine)) :
    ∃ operation rootType, request.document.operation? request.operationName = .ok operation ∧
      schema.rootType (operation.withDefaults request.context) operation.kind = .ok rootType ∧
      env = executor.environment schema request operation ∧
      machine = .start operation rootType request.root := by
  rw [start_eq] at h
  cases ho : request.document.operation? request.operationName with
  | error raised => simp [ho] at h
  | ok operation =>
    cases ht : schema.rootType (operation.withDefaults request.context) operation.kind with
    | error raised => simp [ho, ht] at h
    | ok rootType =>
      simp only [ho, ht, Except.ok.injEq, Prod.mk.injEq] at h
      exact ⟨operation, rootType, rfl, ht, h.1.symm, h.2.symm⟩

theorem start_ok {env : Environment} {machine : Machine}
    (h : executor.start schema request = .ok (env, machine)) :
    ∃ operation rootType, env = executor.environment schema request operation ∧
      machine = .start operation rootType request.root := by
  obtain ⟨operation, rootType, -, -, henv, hmachine⟩ := start_found h
  exact ⟨operation, rootType, henv, hmachine⟩

theorem coherent_start {env : Environment} {machine : Machine}
    (h : executor.start schema request = .ok (env, machine)) : machine.Coherent env := by
  obtain ⟨operation, rootType, -, rfl⟩ := start_ok h
  exact Machine.coherent_start env operation rootType request.root

/-- The machine of a request foretells what the reference comes to. -/
theorem reference_eq (depth : Nat) : Reference.execute executor schema request depth =
    match executor.start schema request with
    | .error raised => .fault raised
    | .ok (env, machine) => (machine.forecast env depth).map Completed.data := by
  rw [start_eq, Reference.execute]
  cases request.document.operation? request.operationName with
  | error raised => rfl
  | ok operation =>
    dsimp only
    cases schema.rootType (operation.withDefaults request.context) operation.kind with
    | error raised => rfl
    | ok rootType =>
      dsimp only
      rw [Machine.forecast, Machine.start, promises_work, Work.promise, Evaluation.map_map,
        ← after_map, Evaluation.map_map]
      exact (after_empty _).symm

/-- Without pruning, a run ends with what the reference comes to. -/
theorem Reaches.refines (hp : executor.config.pruneCollapsedSubtrees = false)
    {result : Except Fault Execution} (h : executor.Reaches schema request result) :
    (∃ depth, (Reference.execute executor schema request depth).Agrees Eq
        (Execution.answer result)) ∧
      ∀ depth, (Reference.execute executor schema request depth).Settles Eq
        (Execution.answer result) := by
  cases h with
  | refused hs =>
    have href : ∀ depth, Reference.execute executor schema request depth = .fault _ :=
      fun depth => by rw [reference_eq, hs]
    exact ⟨⟨0, href 0 ▸ .fault _⟩, fun depth => href depth ▸ (Agrees.fault _).settles⟩
  | @ended env machine last steps _ hs hr he =>
    have hrun := hr.ended (by
      obtain ⟨operation, rootType, rfl, -⟩ := start_ok hs
      exact hp) (coherent_start hs) he
    have href : ∀ depth, Reference.execute executor schema request depth =
        (machine.forecast env depth).map Completed.data := fun depth => by
      rw [reference_eq, hs]
    simpa only [href] using hrun

/-- What the executor itself comes to is what some run ends with. -/
theorem execute_reaches {moves : Nat} {result : Except Fault Execution}
    (h : executor.execute schema request moves = some result) :
    executor.Reaches schema request result := by
  unfold execute at h
  cases hs : executor.start schema request with
  | error raised =>
    rw [hs] at h
    obtain rfl := Option.some.inj h
    exact .refused hs
  | ok started =>
    obtain ⟨env, machine⟩ := started
    rw [hs] at h
    obtain ⟨last, hrun, hresult⟩ := Option.bind_eq_some_iff.mp h
    obtain ⟨steps, hsteps⟩ := Machine.run_of_moves hrun
    exact .ended hs hsteps hresult

/-- An execution of which something is known is what a run ends with. -/
theorem Reaches.of_execute {moves : Nat} {α : Type} {read : Execution → α} {seen : α}
    (h : (executor.execute schema request moves).map (Except.map read) = some (.ok seen)) :
    ∃ execution, executor.Reaches schema request (.ok execution) ∧ read execution = seen := by
  obtain ⟨result, hexecute, hread⟩ := Option.map_eq_some_iff.mp h
  cases result with
  | error raised => cases hread
  | ok execution => exact ⟨execution, execute_reaches hexecute, Except.ok.inj hread⟩

theorem Ends.execute (h : executor.Ends schema request) :
    ∃ moves result, executor.execute schema request moves = some result := by
  cases hs : executor.start schema request with
  | error raised => exact ⟨0, .error raised, by simp [Executor.execute, hs]⟩
  | ok started =>
    obtain ⟨env, machine⟩ := started
    have hnormal : machine.task.Normal := by
      obtain ⟨operation, rootType, -, rfl⟩ := start_ok hs
      exact .work _
    obtain ⟨moves, last, hrun, ho⟩ := (h env machine hs).run hnormal
    obtain ⟨outcome, ho⟩ := Option.ne_none_iff_exists'.mp ho
    exact ⟨moves, _, by simp [Executor.execute, hs, hrun, Machine.result?, ho]; rfl⟩

/-- A request ends on every run if its selections halt. -/
theorem ends_of_halts
    (h : ∀ operation rootType, request.document.operation? request.operationName = .ok operation →
      schema.rootType (operation.withDefaults request.context) operation.kind = .ok rootType →
        ∃ steps, Halts (executor.environment schema request operation) steps
          [.select { path := [], type := rootType, value := request.root } operation.selections
            (operation.kind == .mutation)]) : executor.Ends schema request := by
  intro env machine hs
  rw [start_eq] at hs
  split at hs
  · cases hs
  · next operation ho =>
    split at hs
    · cases hs
    · next rootType ht =>
      cases hs
      obtain ⟨steps, hhalts⟩ := h operation rootType ho ht
      exact hhalts.ends (.work _)

theorem ends_of_acyclic (ha : request.document.Acyclic) : executor.Ends schema request := by
  refine ends_of_halts fun operation rootType _ _ => ?_
  obtain ⟨depth, hd⟩ := ha.exists_shallow operation.selections
  exact Halts.of_shallow depth _ hd

theorem ends_of_done {depth : Nat} {data : Json} {log : Log}
    (h : Reference.execute executor schema request depth = .done data log) :
    executor.Ends schema request := by
  refine ends_of_halts fun operation rootType ho ht => ?_
  simp only [Reference.execute, ho, ht] at h
  obtain ⟨fields, hselect, -⟩ := map_eq_done h
  exact Halts.of_done depth hselect

theorem reference_finished (ha : request.document.Acyclic) :
    ∃ depth, Reference.execute executor schema request depth ≠ .unfinished := by
  unfold Reference.execute
  split
  · exact ⟨0, fun he => nomatch he⟩
  · next operation _ =>
    dsimp only
    split
    · exact ⟨0, fun he => nomatch he⟩
    · obtain ⟨depth, hd⟩ := ha.exists_shallow operation.selections
      exact ⟨depth + 1, map_finished (Reference.select_finished _ hd)⟩

/-- Every run of the request ends, and ends with this outcome. -/
structure Yields (executor : Executor) (schema : Schema) (request : Request)
    (outcome : Evaluation Json) : Prop where
  ends : executor.Ends schema request
  /-- The executor itself comes to a result. -/
  executes : ∃ moves result, executor.execute schema request moves = some result
  agrees : ∀ result, executor.Reaches schema request result →
    outcome.Agrees Eq (Execution.answer result)

/-- Without pruning, a request whose runs end yields what the reference comes to. -/
theorem yields_of_ends (hp : executor.config.pruneCollapsedSubtrees = false)
    (h : executor.Ends schema request) {depth : Nat}
    (hf : Reference.execute executor schema request depth ≠ .unfinished) :
    executor.Yields schema request (Reference.execute executor schema request depth) :=
  ⟨h, h.execute, fun _ hr => (hr.refines hp).2 depth hf⟩

/-- **Execution refines the reference semantics.** Without pruning, every run ends with what the
reference comes to at some depth, and with what it comes to at any depth that suffices: the same
fault, or the same data, errors and calls. Runs end where the reference comes to a result, and
always if the document is acyclic. -/
theorem execution_refines_reference (executor : Executor) (schema : Schema) (request : Request)
    (hp : executor.config.pruneCollapsedSubtrees = false) :
    (∀ result, executor.Reaches schema request result →
      (∃ depth, (Reference.execute executor schema request depth).Agrees Eq
        (Execution.answer result)) ∧
      ∀ depth, (Reference.execute executor schema request depth).Settles Eq
        (Execution.answer result)) ∧
    (∀ depth data log, Reference.execute executor schema request depth = .done data log →
      executor.Yields schema request (.done data log)) ∧
    (request.document.Acyclic → ∃ depth,
      Reference.execute executor schema request depth ≠ .unfinished ∧
        executor.Yields schema request (Reference.execute executor schema request depth)) := by
  refine ⟨fun result hr => hr.refines hp, fun depth data log hd => ?_, fun ha => ?_⟩
  · have hfinished : Reference.execute executor schema request depth ≠ .unfinished := by
      rw [hd]
      exact fun he => nomatch he
    have hyields := yields_of_ends hp (ends_of_done hd) hfinished
    rwa [hd] at hyields
  · obtain ⟨depth, hfinished⟩ := reference_finished ha
    exact ⟨depth, hfinished, yields_of_ends hp (ends_of_acyclic ha) hfinished⟩

end Executor

namespace Sample

def schema : Schema where
  queryType := some "Query"
  types := [.object { name := "Query", fields := [{ name := "user", type := .late "User" }] },
    .object { name := "User", fields := [{ name := "name", type := .required "String" }] }]

/-- The names of users settle in some way. -/
def registry (name : Resolution) : Registry where
  resolvers := [("Query.user", { resolve := fun _ _ _ _ => .ready (.value (.obj [])) }),
    ("User.name", { resolve := fun _ _ _ _ => { resolution := name } })]

def executor (name : Resolution) (config : Config := {}) : Executor where
  config := config
  registry := registry name

def request : Request where
  document :=
    { operations := [{ selections :=
        [.field { name := "user", selections := [.field { name := "name" }] }] }] }

def unknown : FieldValue := .error { message := "unknown" }

/-- A user whose name is not known is null. -/
def nameless : Evaluation Json :=
  .done (.obj [("user", .null)])
    { errors := [{ message := "unknown", path := some [.key "user", .key "name"] }]
      calls := [⟨[.key "user"], "Query", "user"⟩, ⟨[.key "user", .key "name"], "User", "name"⟩] }

theorem execute_nameless (name : Resolution) (config : Config) (hn : name.settled = unknown)
    (hr : name.reports = []) :
    Reference.execute (executor name config) schema request 2 = nameless := by
  have hsettled : ∀ value, (Resolution.ready value).settled = value := fun _ => rfl
  have hreports : ∀ value, (Resolution.ready value).reports = [] := fun _ => rfl
  simp [Reference.execute, executor, request, schema, registry, nameless, Document.operation?,
    Operation.withDefaults, Schema.rootType, Schema.rootName?, Schema.visibleType?, Schema.type?,
    Named.find?, Named.name, TypeDefOf.name, Reference.select, Gathering.collect, Gathering.gather,
    shouldInclude, FieldGroup.add, FieldNodeOf.responseKey, Reference.completeAll,
    Reference.prepare, Reference.lookup, Schema.field?, TypeDefOf.fields?, Schema.resolve,
    FieldLookup.definition, Reference.site, Reference.answer, Registry.resolver?, Registry.fieldKey,
    Members.get?, Reference.field, Reference.settled, Reference.routed, Site.route,
    Reference.complete, Reference.named, Reference.object, Registry.authorize,
    Registry.authorizer?, Reference.entered, FieldGroup.selections, FieldGroup.nodes,
    TypeRef.required, TypeRef.isNonNull, Reference.ended, Completed.null, Completed.object,
    Completed.members?, Completed.data, hsettled, hreports, Reply.ready, Reference.arguments,
    Preparation.arguments, Path.key, all_cons, hn, hr, unknown, Site.fill,
    ResponseError.fillPlace, ResponseError.fillPath, ResponseError.fillLocation]
  rfl

end Sample

namespace Executor

/-- The theorem at a user whose name is not known: the null of the name is that of the user. -/
theorem nameless_refines_reference :
    Executor.Yields (Sample.executor (.deferred [.pause 5] Sample.unknown)) Sample.schema
      Sample.request Sample.nameless :=
  (execution_refines_reference _ _ _ rfl).2.1 2 _ _ (Sample.execute_nameless _ _ rfl rfl)

end Executor

end GraphQL
