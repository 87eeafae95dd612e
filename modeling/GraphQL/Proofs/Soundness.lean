import GraphQL.Proofs.Fulfilment
import Mathlib.Data.List.Permutation

/-!
# Type soundness

The data of a response conform to the root type of the operation, in whatever order the work is
done and whatever is left out. The argument goes backwards along a run: at its end nothing is
expected any more, and a step passes on what is expected of the work that it leaves.
-/

namespace GraphQL

open Strand

namespace Machine

variable {env : Environment} {machine next last : Machine} {settlements : List Settlement}

/-- The rest of a run, in which these values settle: it does the work that a machine has left, every
place of which comes to what is expected of it. -/
structure Delivers (env : Environment) (machine last : Machine) (settlements : List Settlement) :
    Prop where
  settles : last.state.settlements = machine.state.settlements ++ settlements
  sound : Sound machine.task.strands
  inside : ∀ settlement ∈ settlements,
    ∃ top ∈ (Strand.works machine.task.strands).flatMap Work.owned, top <+: settlement.path
  reads : ∃ results, Work.Meets
      ((Strand.works machine.task.strands).flatMap (Work.expectations env settlements)) results ∧
    machine.state.tree.read results = last.state.tree.read []

/-- If the rest of a run after a step delivers, so does the rest before it. -/
theorem Delivers.step (h : next.Delivers env last settlements) (hc : machine.Coherent env)
    (helements : ∀ settlement ∈ last.state.settlements, settlement.isSkip = true →
      ∀ path place, settlement.path ≠ Path.index path place) {address : Address}
    (move : machine.perform? env (.advance address) = some next) :
    ∃ now, machine.Delivers env last (now ++ settlements) := by
  obtain ⟨left, piece, right, deeds, outcome, hs, -, ht, hstate, hk⟩ := advance_account move
  have hsplit := hc.split hs
  have hstrands := ht.eq_of_sound h.sound
  have hsound := hstrands ▸ h.sound
  have hworks : Strand.works next.task.strands =
      Strand.works left ++ Strand.works outcome.strands ++ Strand.works right := by
    rw [hstrands, works_append, works_append]
  have hpiece : Strand.works machine.task.strands =
      Strand.works left ++ piece :: Strand.works right := by
    rw [hs, works_append, works_ok]
  have hinside := h.inside
  obtain ⟨results, hmeets, hread⟩ := h.reads
  rw [hworks] at hinside hmeets
  have hforeseen : Work.Foreseen settlements piece outcome := by
    refine .of_inside hsplit hinside fun settlement hm => helements settlement ?_
    rw [h.settles]
    exact List.mem_append_right _ hm
  have hnow : ∀ settlement ∈ deeds.flatMap Deed.settled, settlement.path ∈ piece.owned := by
    intro settlement hm
    rcases hk with hk | hk
    · exact hk.settled_owned hm
    · rw [hk.settled] at hm
      cases hm
  have hbelow : ∀ path ∈ (Strand.works outcome.strands).flatMap Work.owned,
      ∃ top ∈ piece.owned, top <+: path := (Work.succession_of_account hk hsplit.single).below
  have hredeems : ∀ new, Work.Meets
      ((Strand.works outcome.strands).flatMap (Work.expectations env settlements)) new →
        Work.Redeems env machine.state piece deeds settlements new := by
    intro new hnew
    rcases hk with hk | hk
    · exact hk.redeems hsplit.single (sound_append.mp (sound_append.mp hsound).1).2 hforeseen hnew
    · exact hk.redeems hsplit.single hnew
  obtain ⟨own, hown, hreads⟩ := Work.Redeems.around hsplit hnow hmeets hredeems
  refine ⟨deeds.flatMap Deed.settled, ?_, ?_, ?_, own, ?_, ?_⟩
  · rw [h.settles, hstate, State.settlements_performAll, List.append_assoc]
  · rw [hs]
    exact hsound.work piece
  · rw [hpiece]
    intro settlement hm
    rcases List.mem_append.mp hm with hm | hm
    · exact ⟨settlement.path, by simp [hnow settlement hm], List.prefix_refl _⟩
    · obtain ⟨top, htop, hp⟩ := hinside settlement hm
      obtain ⟨above, ha, habove⟩ := Work.inside_around hbelow htop
      exact ⟨above, ha, habove.trans hp⟩
  · rwa [hpiece]
  · rw [hreads, ← hread, hstate]

/-- A run that ends well delivers, if no element of a list is skipped. -/
theorem Run.delivers {steps : Nat} {first : Machine} (h : Run env steps first last)
    (hc : first.Coherent env) (hd : last.task = .done)
    (helements : ∀ settlement ∈ last.state.settlements, settlement.isSkip = true →
      ∀ path place, settlement.path ≠ Path.index path place) :
    ∃ settlements, first.Delivers env last settlements := by
  -- the end of the run delivers, as there is no work left; each step before it does in turn
  induction h with
  | refl machine =>
    refine ⟨[], by simp, ?_, by simp, [], ?_, rfl⟩
    · rw [hd]
      exact sound_map_ok []
    · rw [hd]
      exact .nil
  | advance move _ ih =>
    obtain ⟨settlements, hdelivers⟩ := ih (hc.advance move) hd helements
    obtain ⟨now, hnext⟩ := hdelivers.step hc helements move
    exact ⟨_, hnext⟩
  | pass move _ ih =>
    obtain ⟨wake, -, rfl⟩ := pass_eq move
    obtain ⟨settlements, hdelivers⟩ := ih hc hd helements
    exact ⟨settlements, hdelivers.settles, hdelivers.sound, hdelivers.inside, hdelivers.reads⟩

theorem result_ok {execution : Execution} (h : last.result? = some (.ok execution)) :
    last.task = .done ∧ execution.settlements = last.state.settlements ∧
      execution.response.data = (last.state.tree.read []).data := by
  obtain ⟨hdone, rfl⟩ := execution_of_result h
  exact ⟨hdone, rfl, last.state.tree.read_nil.symm⟩

end Machine

namespace Executor

/-- **Every response is well typed.** Where the root of an operation is an object type and no
element of a list is skipped, nor the authorization of one, the data of a response conform to the
root type: they do so whatever the resolvers, the authorizers, the settings and the order of the
work are. -/
theorem response_conforms (executor : Executor) (schema : Schema) (request : Request)
    (operation : Operation) (objectType : ObjectDef) (execution : Execution)
    (ho : request.document.operation? request.operationName = .ok operation)
    (ht : schema.rootType (operation.withDefaults request.context) operation.kind =
      .ok (.object objectType))
    (hr : executor.Reaches schema request (.ok execution))
    (helements : ∀ settlement ∈ execution.settlements, settlement.isSkip = true →
      ∀ path place, settlement.path ≠ Path.index path place) :
    Conforms (executor.environment schema request operation) execution.settlements
      (.resolved (.object objectType)) operation.selections [] execution.response.data := by
  cases hr with
  | @ended env machine last steps _ hs hr he =>
    obtain ⟨hdone, hsettlements, hdata⟩ := Machine.result_ok he
    obtain ⟨settlements, hdelivers⟩ :=
      hr.delivers (coherent_start hs) hdone (hsettlements ▸ helements)
    simp only [start_eq, ho, ht, Except.ok.injEq, Prod.mk.injEq] at hs
    obtain ⟨rfl, rfl⟩ := hs
    obtain ⟨results, hmeets, hread⟩ := hdelivers.reads
    cases hmeets with
    | @cons _ entry _ _ hmeets hrest =>
      cases hrest
      obtain ⟨_, result⟩ := entry
      obtain ⟨rfl, hfits⟩ := hmeets
      have hread : last.state.tree.read [] = result false := by
        rw [← hread]
        rfl
      rw [hsettlements, hdelivers.settles, hdata, hread]
      exact (hfits objectType rfl false).conforms_data rfl

end Executor

namespace Sample

def query : ObjectDef := { name := "Query", fields := [{ name := "user", type := .late "User" }] }

def operation : Operation :=
  { selections := [.field { name := "user", selections := [.field { name := "name" }] }] }

/-- A user whose name is skipped has no name. -/
theorem execute_anonymous :
    ((executor (.deferred [.pause 5] .skip)).execute schema request 30).map (fun result =>
      result.map fun execution =>
        (execution.response.data, execution.settlements.map fun settlement =>
          (settlement.path, settlement.isSkip))) =
      some (.ok (.obj [("user", .obj [])],
        [([.key "user"], false), ([.key "user"], false), ([.key "user", .key "name"], true)])) := by
  cbv

end Sample

namespace Executor

/-- The theorem at a user whose name is skipped. -/
theorem anonymous_conforms :
    ∃ execution : Execution, Conforms
      ((Sample.executor (.deferred [.pause 5] .skip)).environment Sample.schema Sample.request
        Sample.operation) execution.settlements (.resolved (.object Sample.query))
      Sample.operation.selections [] (.obj [("user", .obj [])]) := by
  obtain ⟨result, hexecute, hresult⟩ := Option.map_eq_some_iff.mp Sample.execute_anonymous
  cases result with
  | error raised => cases hresult
  | ok execution =>
    obtain ⟨hdata, hsettlements⟩ := Prod.mk.inj (Except.ok.inj hresult)
    refine ⟨execution, hdata ▸ response_conforms _ _ _ _ _ execution rfl rfl
      (execute_reaches hexecute) fun settlement hm hs path place => ?_⟩
    have hpair := List.mem_map_of_mem
      (f := fun settlement => (settlement.path, settlement.isSkip)) hm
    have hskipped : settlement.path = [.key "user", .key "name"] := by
      simpa [hsettlements, hs] using hpair
    rw [hskipped]
    intro he
    simpa [Path.index] using congrArg List.getLast? he

end Executor

end GraphQL
