import GraphQL.Proofs.Refinement

/-!
# Scheduling

Executors that differ in nothing but when deferred values settle and how much of the work is done
at once. The reference does not tell them apart, so neither do their runs: which run of which of
them ends first, and in what order its work was done, cannot be seen in what it ends with.
-/

namespace GraphQL

open Evaluation

namespace Executor

/-- Executors that differ in delays, in concurrency and in what they trace. -/
structure Retimed (a b : Executor) : Prop where
  registry : a.registry.Retimed b.registry
  introspection : a.config.introspection = b.config.introspection

variable {a b : Executor} {schema : Schema} {request : Request}

theorem Retimed.environment (h : a.Retimed b) (schema : Schema) (request : Request)
    (operation : Operation) :
    (a.environment schema request operation).Retimed (b.environment schema request operation) :=
  ⟨rfl, rfl, rfl, h.registry, h.introspection⟩

/-- The reference comes to the same for both, at every depth that suffices. -/
theorem Retimed.reference (h : a.Retimed b) {depth more : Nat} (hd : depth ≤ more) :
    (Reference.execute a schema request depth).Settles Eq
      (Reference.execute b schema request more) := by
  unfold Reference.execute
  cases request.document.operation? request.operationName with
  | error raised => exact .refl _
  | ok operation =>
    dsimp only
    cases schema.rootType (operation.withDefaults request.context) operation.kind with
    | error raised => exact .refl _
    | ok rootType =>
      have hselect := Reference.select_settles (h.environment schema request operation) hd
        { path := [], type := rootType, value := request.root } operation.selections
        (operation.kind == .mutation)
      exact hselect.map fun _ _ he => by rw [he]

/-- **Scheduling does not matter.** For an acyclic document and without pruning there is one outcome
that every run ends with, whatever the delays and the bounds on concurrency are: one fault, or one
value of the data and, in some order, the same errors and the same calls. -/
theorem scheduling_independent (a b : Executor) (schema : Schema) (request : Request)
    (h : a.Retimed b) (hd : request.document.Acyclic)
    (ha : a.config.pruneCollapsedSubtrees = false) (hb : b.config.pruneCollapsedSubtrees = false) :
    ∃ outcome, outcome ≠ .unfinished ∧ a.Yields schema request outcome ∧
      b.Yields schema request outcome := by
  obtain ⟨depth, hfinished⟩ : ∃ depth, Reference.execute a schema request depth ≠ .unfinished :=
    reference_finished hd
  have hsame : (Reference.execute a schema request depth).Agrees Eq
      (Reference.execute b schema request depth) := h.reference (Nat.le_refl depth) hfinished
  have hyields := yields_of_ends hb (ends_of_acyclic hd) (hsame.finished hfinished)
  refine ⟨_, hfinished, yields_of_ends ha (ends_of_acyclic hd) hfinished, hyields.ends,
    hyields.executes, fun result hr => ?_⟩
  exact hsame.trans_eq (hyields.agrees result hr)

end Executor

namespace Sample

theorem acyclic : request.document.Acyclic := by
  intro name hcycle
  obtain ⟨_, ⟨fragment, hf, -⟩, -⟩ := Relation.TransGen.head'_iff.mp hcycle
  cases hf

/-- The registries of users differ in delays if the names of the users do. -/
theorem registry_retimed {name other : Resolution} (h : name.Retimed other) :
    (registry name).Retimed (registry other) := by
  refine .of_resolvers (.cons ⟨rfl, fun _ _ _ _ => .refl _⟩ (.cons ⟨rfl, fun _ _ _ _ => ?_⟩ .nil))
  cases h with
  | intro reports settled => exact ⟨reports, settled⟩

end Sample

namespace Executor

/-- The theorem at a user whose name is unknown at once, or only after a while and with the work
done one piece at a time. -/
theorem scheduling_independent_of_slow_name :
    ∃ outcome, outcome ≠ .unfinished ∧
      Yields (Sample.executor (.ready Sample.unknown)) Sample.schema Sample.request outcome ∧
      Yields (Sample.executor (.deferred [.pause 5] Sample.unknown)
          { maxParallelDepth := 0, maxConcurrentResolvers := 1 })
        Sample.schema Sample.request outcome := by
  have hname : (Resolution.ready Sample.unknown).Retimed (.deferred [.pause 5] Sample.unknown) :=
    .intro (.refl _) (.refl _)
  exact scheduling_independent _ _ _ _ ⟨Sample.registry_retimed hname, rfl⟩ Sample.acyclic rfl rfl

end Executor

end GraphQL
