import GraphQL.Proofs.Scheduling
import Mathlib.Data.List.Permutation

/-!
# Pruning

A field of an object that has collapsed may be left out: nothing that is written below a null can be
seen, so the data come to the same without it. What goes missing are errors and calls. Which fields
are left out depends on the order of the work; what is left does not.

Whether an object has collapsed is looked at before the resolver is called, and not for as long as
the call and what it defers take. A field is called below a null if its object collapses meanwhile.
-/

namespace GraphQL

open Evaluation Reference Strand

namespace Evaluation

variable {α β : Type}

/-- `Trims x y`: where `x` comes to a result, `y` comes to it too, with no more errors and calls. -/
def Trims (x y : Evaluation α) : Prop :=
  ∀ a log, x = .done a log → ∃ less, y = .done a less ∧ less.Within log

theorem Trims.refl (x : Evaluation α) : x.Trims x := fun _ log h =>
  ⟨log, h, (Log.Perm.refl log).within⟩

theorem Trims.trans {x y z : Evaluation α} (h : x.Trims y) (k : y.Trims z) : x.Trims z := by
  intro a log ha
  obtain ⟨fewer, hy, hfewer⟩ := h a log ha
  obtain ⟨less, hz, hless⟩ := k a fewer hy
  exact ⟨less, hz, hless.trans hfewer⟩

theorem Settles.trims {x y : Evaluation α} (h : x.Settles Eq y) : x.Trims y := by
  rintro a log rfl
  cases h fun he => nomatch he with
  | done he hl => exact ⟨_, by rw [he], hl.symm.within⟩

theorem Trims.map {x y : Evaluation α} (h : x.Trims y) (f : α → β) : (x.map f).Trims (y.map f) := by
  intro b log hb
  obtain ⟨a, ha, rfl⟩ := map_eq_done hb
  obtain ⟨less, hy, hless⟩ := h a log ha
  exact ⟨less, by rw [hy, map_done], hless⟩

end Evaluation

namespace Work

variable {env : Environment} {state : State} {piece : Work} {deeds : List Deed} {outcome : Task}

/-- A field of an object that has collapsed leads through a null. -/
theorem dead_of_not_live {tree : ResultTree} {path : Path} {key : String}
    (ho : tree.data.Open (path.key key)) (hd : tree.isLive path = false) :
    tree.data.Dead (path.key key) := by
  rcases ho with ho | ho
  · obtain ⟨hole, child, hobject, -, -⟩ := Slot.at?_above ho
    rw [ResultTree.isLive, hobject] at hd
    cases hole <;> cases hd
  · exact ho

theorem dead_of_collapsed {frame : ObjectFrame} {key : String}
    (hc : Coherent env state.tree [piece]) (hm : frame.path.key key ∈ piece.owned)
    (hd : state.tree.isLive frame.path = false) :
    state.tree.data.Dead (frame.path.key key) :=
  dead_of_not_live (hc.isOpen _ (by simpa using hm)) hd

/-- A field that is left out was to fill a place that cannot be seen. -/
theorem Prunes.trims (h : Prunes env state piece deeds outcome)
    (hc : Coherent env state.tree [piece]) {depth : Nat} {own : Results} {log : Log}
    (hd : piece.promise env depth = .done own log) :
    ∃ new less, promises env depth outcome.strands = .done new less ∧ less.Within log ∧
      Joins state.tree (state.performAll deeds).tree own new := by
  cases h with
  | @prepare frame group rest prepared hp hcollapsed =>
    have hdead := dead_of_collapsed hc (List.mem_append_right _ List.mem_cons_self) hcollapsed
    obtain ⟨completed, hcompleted, rfl⟩ := map_eq_done hd
    obtain ⟨more, _, _, hmore, hall, rfl⟩ := bind_eq_done hcompleted
    obtain ⟨first, others, called, lookups, -, hothers, rfl, rfl⟩ := all_eq_done_cons hmore
    rw [List.map_append] at hall
    obtain ⟨before, _, left, _, hbefore, hmiddle, rfl, rfl⟩ := all_eq_done_append hall
    obtain ⟨result, after, dropped, right, -, hafter, rfl, rfl⟩ := all_eq_done_cons hmiddle
    have hlength : before.length = (prepared.map fun entry => entry.1.path).length := by
      simpa using all_length hbefore
    refine ⟨.fixed (Work.prepare frame .declare rest prepared).owned (before ++ after),
      lookups ++ (left ++ right), ?_, ?_, ?_⟩
    · rw [promises_work, Work.promise, hothers, bind_done, List.map_append, all_append, hbefore,
        bind_done, hafter]
      rfl
    · exact (Log.within_append called lookups).append
        ((Log.Perm.refl left).within.append (Log.within_append dropped right))
    · simp only [Work.owned, Results.fixed_append hlength, List.map_cons]
      exact .of_dead hc.regular hdead (.refl _) _ _ fun _ => result
  | field hp hcollapsed =>
    have hdead := dead_of_collapsed hc List.mem_cons_self hcollapsed
    obtain ⟨completed, -, rfl⟩ := map_eq_done hd
    refine ⟨[], {}, rfl, Log.empty_within log, ?_⟩
    exact .of_dead hc.regular hdead (.refl _) [] [] fun _ => completed

theorem live_above {tree : ResultTree} {path above : Path} (h : tree.isLive path = true)
    (ha : above <+: path) : tree.isLive above = true := by
  obtain ⟨rest, rfl⟩ := ha
  cases rest with
  | nil => simpa using h
  | cons segment rest =>
    cases hf : tree.data.at? (above ++ segment :: rest) with
    | none => simp [ResultTree.isLive, hf] at h
    | some found =>
      obtain ⟨hole, child, hobject, -, -⟩ := Slot.at?_above hf
      rw [ResultTree.isLive, hobject]
      cases hole <;> rfl

/-- The path of a field that has been let through to the call of its resolver. -/
def admitted? : Work → Option Path
  | prepare frame .call (group :: _) _ => some (frame.path.key group.key)
  | field frame .call group => some (frame.path.key group.key)
  | _ => none

/-- The call that answers a field is at the field. -/
theorem path_of_answer {frame : ObjectFrame} {group : FieldGroup} {found : FieldLookup}
    {type : TypeRef} {call : Call} (h : call ∈ (answer env frame group found type).2) :
    call.path = frame.path.key group.key := by
  cases found with
  | introspection field => simp [answer] at h
  | ordinary definition =>
    cases hr : env.registry.resolver? frame.type.name group.node.name with
    | none => simp [answer, hr] at h
    | some entry =>
      obtain rfl : call = _ := by simpa [answer, hr] using h
      rfl

/-- A resolver is called for a field that has been let through. -/
theorem Step.called (h : Step env state piece deeds outcome) {call : Call}
    (hm : call ∈ (Deed.logs deeds).calls) : piece.admitted? = some call.path := by
  have hfield : ∀ {frame : ObjectFrame} {group : FieldGroup} {found : FieldLookup} {type : TypeRef},
      call ∈ (Deed.logs (fieldDeeds env frame group found type)).calls →
        call.path = frame.path.key group.key := by
    intro frame group found type hc
    rw [logs_fieldDeeds, Log.calls_append, List.append_nil] at hc
    exact path_of_answer hc
  cases h with
  | prepare | field => exact congrArg some (hfield hm).symm
  | complete =>
    rw [logs_shaped] at hm
    split at hm <;> cases hm
  | _ => simp [Deed.log, Event.calls] at hm

/-- With pruning, a field is let through by a step that changes nothing, where its object can be
seen. -/
theorem Step.admits (h : Step env state piece deeds outcome)
    (hp : env.config.pruneCollapsedSubtrees = true) {left : Work}
    (hm : left ∈ works outcome.strands)
    {path : Path} (ha : left.admitted? = some path) :
    deeds = [] ∧ ∃ frame : ObjectFrame, ∃ key, path = frame.path.key key ∧
      state.tree.isLive frame.path = true := by
  have hsome : left.admitted? ≠ none := by simp [ha]
  cases h with
  | gather =>
    exact absurd (forall_works_gathered (P := fun left => left.admitted? = none) rfl
      (fun _ _ => rfl) left hm) hsome
  | prepared =>
    exact absurd (forall_works_prepared (P := fun left => left.admitted? = none)
      (fun _ _ => rfl) left hm) hsome
  | prepareAdmit hlive | fieldAdmit hlive =>
    obtain rfl := List.mem_singleton.mp hm
    exact ⟨rfl, _, _, (Option.some.inj ha).symm, hlive hp⟩
  | complete =>
    exact absurd (forall_works_shaped (P := fun left => left.admitted? = none)
      (fun _ _ _ _ _ _ => rfl) (fun _ _ _ => rfl) left hm) hsome
  | gatherFault | prepareFault | fieldFault | skip | null | refuse => cases hm
  | _ =>
    obtain rfl := List.mem_singleton.mp hm
    cases ha

theorem Prunes.admits (h : Prunes env state piece deeds outcome) {left : Work}
    (hm : left ∈ works outcome.strands) : left.admitted? = none := by
  cases h with
  | prepare =>
    obtain rfl := List.mem_singleton.mp hm
    rfl
  | field => cases hm

end Work

/-- The object of a field can be seen, and so can all that it is in. -/
def ResultTree.Sees (tree : ResultTree) (path : Path) : Prop :=
  ∀ above, above <+: path → above ≠ path → tree.isLive above = true

theorem ResultTree.sees_key {tree : ResultTree} {path : Path} (h : tree.isLive path = true)
    (key : String) : tree.Sees (path.key key) := by
  intro above ha hne
  exact Work.live_above h ((List.prefix_concat_iff.mp ha).resolve_left hne)

namespace Machine

variable {env : Environment} {machine next first last : Machine} {steps : Nat}

/-- At a moment of a run the field had been let through to its call, and all above it could be
seen. -/
def Admitted (env : Environment) (first last : Machine) (path : Path) : Prop :=
  ∃ before seen since, Run env before first seen ∧ Run env since seen last ∧
    (∃ piece ∈ Strand.works seen.task.strands, piece.admitted? = some path) ∧
    seen.state.tree.Sees path

/-- Leaving out a field keeps what the machine comes to, but for errors and calls. -/
theorem forecast_prune (hc : machine.Coherent env) {left right : List Strand} {piece : Work}
    {deeds : List Deed} {outcome : Task}
    (hs : machine.task.strands = left ++ .ok piece :: right)
    (ht : Strand.Trims (left ++ outcome.strands ++ right) next.task.strands)
    (hstate : next.state = machine.state.performAll deeds)
    (h : Work.Prunes env machine.state piece deeds outcome) (depth : Nat) :
    (machine.forecast env depth).Trims (next.forecast env depth) := by
  intro completed log hd
  rw [forecast_split hs] at hd
  obtain ⟨_, hmiddle, rfl⟩ := after_eq_done hd
  obtain ⟨before, first, _, hl, hpiece, rfl⟩ := bind_eq_done hmiddle
  obtain ⟨own, log, last, ho, hright, rfl⟩ := bind_eq_done hpiece
  obtain ⟨after, hr, rfl⟩ := map_eq_done hright
  obtain ⟨new, less, hn, hless, hj⟩ := h.trims (hc.split hs).single ho
  have hlogs : Deed.logs deeds = {} := by cases h <;> rfl
  refine ⟨machine.state.log ++ (first ++ (less ++ last)), ?_, ?_⟩
  · rw [forecast_eq ht, hl, hn, hr, hstate, State.log_performAll, hlogs, Log.append_empty]
    simp only [bind_done, map_done, after_done]
    rw [hc.read_eq hs hl hr (Work.promise_paths ho) hj]
  · have hsame : ∀ log : Log, log.Within log := fun log => (Log.Perm.refl log).within
    exact (hsame _).append ((hsame first).append (hless.append (hsame last)))

theorem forecast_trims {address : Address} (hc : machine.Coherent env)
    (move : machine.perform? env (.advance address) = some next) (depth : Nat) :
    (machine.forecast env depth).Trims (next.forecast env depth) := by
  obtain ⟨left, piece, right, deeds, outcome, hs, -, ht, hstate, hk⟩ := advance_account move
  rcases hk with hk | hk
  · exact (forecast_step hc hs ht hstate hk depth).1.trims
  · exact forecast_prune hc hs ht hstate hk depth

/-- Whatever is left out, a run comes to what was foretold when it began. -/
theorem Run.trims (h : Run env steps first last) (hc : first.Coherent env) (depth : Nat) :
    (first.forecast env depth).Trims (last.forecast env depth) := by
  induction h with
  | refl machine => exact .refl _
  | advance move _ ih => exact (forecast_trims hc move depth).trans (ih (hc.advance move))
  | pass move _ ih =>
    obtain ⟨wake, -, rfl⟩ := pass_eq move
    exact ih hc

/-- The events of a move that call a resolver are those of the step that called it. -/
theorem called_of_move {move : Move} (hm : machine.perform? env move = some next)
    {events : List (Nat × Event)} (he : next.state.history = events ++ machine.state.history)
    {entry : Nat × Event} (hentry : entry ∈ events) {call : Call} (hcall : call ∈ entry.2.calls) :
    ∃ piece ∈ Strand.works machine.task.strands, piece.admitted? = some call.path := by
  cases move with
  | pass =>
    obtain ⟨wake, -, rfl⟩ := pass_eq hm
    obtain rfl := List.append_left_eq_self.mp he.symm
    cases hentry
  | advance address =>
    obtain ⟨left, piece, right, deeds, outcome, hs, -, -, hstate, hk⟩ := advance_account hm
    have hlog := congrArg Log.calls (State.log_performAll machine.state deeds)
    rw [← hstate] at hlog
    simp only [State.log, he, List.reverse_append, List.flatMap_append, Log.calls_append] at hlog
    have hdeeds := List.append_cancel_left hlog
    have hmem : call ∈ (Deed.logs deeds).calls := by
      rw [← hdeeds]
      exact List.mem_flatMap.mpr ⟨entry, List.mem_reverse.mpr hentry, hcall⟩
    rcases hk with hk | hk
    · exact ⟨piece, by simp [hs], hk.called hmem⟩
    · cases hk <;> cases hmem

theorem Admitted.run {path : Path} (h : Admitted env first machine path)
    (hr : Run env steps machine last) : Admitted env first last path := by
  obtain ⟨before, seen, since, hbefore, hsince, hadmitted⟩ := h
  exact ⟨before, seen, since + steps, hbefore, hsince.trans hr, hadmitted⟩

/-- A step lets a field through only where all above it can be seen. -/
theorem Admitted.advance (hp : env.config.pruneCollapsedSubtrees = true)
    (h : ∀ piece ∈ Strand.works machine.task.strands, ∀ path, piece.admitted? = some path →
      Admitted env first machine path)
    (hr : Run env steps first machine) {address : Address}
    (move : machine.perform? env (.advance address) = some next) :
    ∀ piece ∈ Strand.works next.task.strands, ∀ path, piece.admitted? = some path →
      Admitted env first next path := by
  have hmove : Run env 1 machine next := .advance move (.refl next)
  intro other hother path ha
  obtain ⟨left, piece, right, deeds, outcome, hs, -, htrim, hstate, hk⟩ := advance_account move
  rw [hs] at h
  have hsplit : other ∈ Strand.works outcome.strands ∨ Admitted env first machine path :=
    htrim.forall_works (P := fun piece => piece = other →
        other ∈ Strand.works outcome.strands ∨ Admitted env first machine path)
      (fun piece hm he => .inr (h piece hm path (he ▸ ha))) (fun piece hm he => .inl (he ▸ hm))
      other hother rfl
  rcases hsplit with hnew | hold
  · rcases hk with hk | hk
    · obtain ⟨rfl, frame, key, rfl, hlive⟩ := hk.admits hp hnew ha
      refine ⟨_, next, 0, hr.trans hmove, .refl next, ⟨other, hother, ha⟩, ?_⟩
      rw [hstate]
      exact ResultTree.sees_key hlive key
    · rw [hk.admits hnew] at ha
      cases ha
  · exact hold.run hmove

/-- With pruning, every field that is let through along a run was seen to be below objects that
could be seen. -/
theorem Run.admitted (h : Run env steps first last)
    (hp : env.config.pruneCollapsedSubtrees = true)
    (hn : ∀ piece ∈ Strand.works first.task.strands, piece.admitted? = none) :
    ∀ piece ∈ Strand.works last.task.strands, ∀ path, piece.admitted? = some path →
      Admitted env first last path := by
  refine (h.preserves (P := fun machine => (∃ steps, Run env steps first machine) ∧
    ∀ piece ∈ Strand.works machine.task.strands, ∀ path, piece.admitted? = some path →
      Admitted env first machine path) (fun move hm => ?_) (fun move hm => ?_) ⟨⟨0, .refl first⟩,
        fun piece hm path ha => nomatch (hn piece hm).symm.trans ha⟩).2
  · obtain ⟨⟨steps, hr⟩, hadmitted⟩ := hm
    exact ⟨⟨_, hr.trans (.advance move (.refl _))⟩, Admitted.advance hp hadmitted hr move⟩
  · obtain ⟨⟨steps, hr⟩, hadmitted⟩ := hm
    have hmove := Run.pass move (.refl _)
    refine ⟨⟨_, hr.trans hmove⟩, fun piece hm path ha => ?_⟩
    obtain ⟨wake, -, rfl⟩ := pass_eq move
    exact (hadmitted piece hm path ha).run hmove

end Machine

namespace Executor

/-- Whether or not there is pruning, a run ends with what the reference comes to, but for errors
and calls. -/
theorem Reaches.trims {executor : Executor} {schema : Schema} {request : Request}
    {result : Except Fault Execution} (h : executor.Reaches schema request result) (depth : Nat) :
    (Reference.execute executor schema request depth).Trims (Execution.answer result) := by
  rw [reference_eq]
  cases h with
  | refused hs =>
    rw [hs]
    exact .refl _
  | ended hs hr he =>
    rw [hs]
    exact ((hr.trims (coherent_start hs) depth).map _).trans
      (Machine.forecast_ended depth he).settles.trims

/-- **Pruning changes no data.** Where a run without pruning succeeds, every run with it ends and
succeeds with the same data; its errors and its calls are among those of the other run. A resolver
is called only for a field that had been let through when its object, and all that it is in, could
be seen; if no work has taken a step since, they still can. -/
theorem pruning_changes_no_data (a b : Executor) (schema : Schema) (request : Request)
    (h : a.Retimed b) (ha : a.config.pruneCollapsedSubtrees = false)
    (hb : b.config.pruneCollapsedSubtrees = true) :
    (∀ execution, a.Reaches schema request (.ok execution) →
      b.Ends schema request ∧
      (∃ moves result, b.execute schema request moves = some result) ∧
      ∀ result, b.Reaches schema request result → ∃ pruned, result = .ok pruned ∧
        pruned.response.data = execution.response.data ∧ pruned.log.Within execution.log) ∧
    ∀ env machine steps last move next, b.start schema request = .ok (env, machine) →
      Machine.Run env steps machine last → last.perform? env move = some next →
      ∀ events, next.state.history = events ++ last.state.history →
      ∀ entry ∈ events, ∀ call ∈ entry.2.calls,
        ∃ before seen since, Machine.Run env before machine seen ∧
          Machine.Run env since seen last ∧
          (∃ piece ∈ Strand.works seen.task.strands, piece.admitted? = some call.path) ∧
          ∀ above, above <+: call.path → above ≠ call.path →
            seen.state.tree.isLive above = true ∧
              (since = 0 → last.state.tree.isLive above = true) := by
  constructor
  · intro execution hr
    obtain ⟨⟨depth, hagrees⟩, -⟩ := hr.refines ha
    obtain ⟨log, hdone, hlog⟩ : ∃ log, Reference.execute b schema request depth =
        .done execution.response.data log ∧ log.Within execution.log := by
      have hfinished := hagrees.symm_eq.finished fun he => nomatch he
      have hb := (h.reference (Nat.le_refl depth) hfinished).symm_eq.trans_eq hagrees
      generalize Reference.execute b schema request depth = x at hb
      cases hb with
      | done he hl => exact ⟨_, by rw [he], hl.within⟩
    refine ⟨ends_of_done hdone, (ends_of_done hdone).execute, fun result hresult => ?_⟩
    obtain ⟨less, hless, hwithin⟩ := hresult.trims depth _ _ hdone
    cases result with
    | error raised => cases hless
    | ok pruned =>
      obtain ⟨hdata, rfl⟩ := Evaluation.done.inj hless
      exact ⟨pruned, rfl, hdata, hwithin.trans hlog⟩
  · intro env machine steps last move next hs hrun hm events he entry hentry call hcall
    obtain ⟨operation, rootType, rfl, rfl⟩ := start_ok hs
    obtain ⟨piece, hpiece, hadmitted⟩ := Machine.called_of_move hm he hentry hcall
    have hnone : ∀ piece ∈ Strand.works
        (Machine.start operation rootType request.root).task.strands, piece.admitted? = none := by
      intro piece hp
      obtain rfl := List.mem_singleton.mp hp
      rfl
    obtain ⟨before, seen, since, hbefore, hsince, hseen, hlive⟩ :=
      hrun.admitted hb hnone piece hpiece call.path hadmitted
    refine ⟨before, seen, since, hbefore, hsince, hseen, fun above hp hne => ?_⟩
    refine ⟨hlive above hp hne, fun hidle => ?_⟩
    rw [hsince.tree_of_idle hidle]
    exact hlive above hp hne

end Executor

namespace Sample

/-- An object that collapses when its first field fails, beside a field that leads further down. -/
def collapsing : Schema where
  queryType := some "Query"
  types := [.object { name := "Query", fields := [{ name := "a", type := .late "A" }] },
    .object { name := "A", fields :=
      [{ name := "fail", type := .required "String" }, { name := "slow", type := .late "B" }] },
    .object { name := "B", fields := [{ name := "effect", type := .late "Int" }] },
    .scalar { name := "Int" }, .scalar { name := "String" }]

def collapse : Request where
  document := { operations := [{ selections := [.field { name := "a", selections :=
    [.field { name := "fail" },
      .field { name := "slow", selections := [.field { name := "effect" }] }] }] }] }

/-- The first field fails, and the second settles in some way. -/
def failing (fail slow : Resolution) (config : Config) : Executor where
  config := config
  registry :=
    { resolvers := [("Query.a", { resolve := fun _ _ _ _ => .ready (.value (.obj [])) }),
        ("A.fail", { resolve := fun _ _ _ _ => { resolution := fail } }),
        ("A.slow", { resolve := fun _ _ _ _ => { resolution := slow } }),
        ("B.effect", { resolve := fun _ _ _ _ => .ready (.value (.int 1)) })] }

def failPath : Path := [.key "a", .key "fail"]

def slowPath : Path := [.key "a", .key "slow"]

def effectPath : Path := [.key "a", .key "slow", .key "effect"]

/-- The field beside the failure settles long after it. -/
def patient (prune : Bool) : Executor :=
  failing (.ready unknown) (.deferred [.pause 20] (.value (.obj [])))
    { pruneCollapsedSubtrees := prune }

/-- Without pruning, the field below the object that has collapsed is called. -/
theorem execute_collapse :
    ((patient false).execute collapsing collapse 60).map (fun result =>
      result.map fun execution => (execution.response.data, execution.log.calls.map Call.path)) =
      some (.ok (.obj [("a", .null)], [[.key "a"], failPath, slowPath, effectPath])) := by
  cbv

/-- With pruning it is not. -/
theorem execute_collapse_pruned :
    ((patient true).execute collapsing collapse 60).map (fun result =>
      result.map fun execution => execution.log.calls.map Call.path) =
      some (.ok [[.key "a"], failPath, slowPath]) := by
  cbv

end Sample

namespace Executor

/-- The theorem at an object that collapses before the value beside the failure has settled: the
field below that value is not called with pruning, and the data are the same. -/
theorem pruning_spares_effect :
    ∃ full pruned,
      (Sample.patient false).Reaches Sample.collapsing Sample.collapse (.ok full) ∧
      (Sample.patient true).Reaches Sample.collapsing Sample.collapse (.ok pruned) ∧
      full.response.data = .obj [("a", .null)] ∧ pruned.response.data = full.response.data ∧
      pruned.log.Within full.log ∧ Sample.effectPath ∈ full.log.calls.map Call.path ∧
      Sample.effectPath ∉ pruned.log.calls.map Call.path := by
  obtain ⟨full, hfull, hseen⟩ := Reaches.of_execute Sample.execute_collapse
  obtain ⟨hdata, hcalls⟩ := Prod.mk.inj hseen
  obtain ⟨pruned, hpruned, hless⟩ := Reaches.of_execute Sample.execute_collapse_pruned
  have hretimed : (Sample.patient false).Retimed (Sample.patient true) := ⟨.refl _, rfl⟩
  obtain ⟨-, -, hresults⟩ := (pruning_changes_no_data _ _ Sample.collapsing Sample.collapse
    hretimed rfl rfl).1 full hfull
  obtain ⟨_, he, hsame, hwithin⟩ := hresults _ hpruned
  obtain rfl := Except.ok.inj he
  refine ⟨full, pruned, hfull, hpruned, hdata, hsame, hwithin, ?_, ?_⟩
  · rw [hcalls]
    decide
  · rw [hless]
    decide

end Executor

namespace Machine

/-- The machine after steps of the work at these addresses, one after another. -/
def follow (env : Environment) (addresses : List Address) (machine : Machine) : Option Machine :=
  addresses.foldlM (fun machine address => machine.perform? env (.advance address)) machine

theorem run_of_follow {env : Environment} {machine last : Machine} {addresses : List Address}
    (h : machine.follow env addresses = some last) : Run env addresses.length machine last := by
  induction addresses generalizing machine with
  | nil => exact Option.some.inj h ▸ .refl machine
  | cons address rest ih =>
    obtain ⟨next, move, hrest⟩ := Option.bind_eq_some_iff.mp h
    exact .advance move (ih hrest)

end Machine

namespace Sample

/-- Nothing is deferred. -/
def prompt : Executor :=
  failing (.ready unknown) (.ready (.value (.obj []))) { pruneCollapsedSubtrees := true }

/-- Both values are deferred, and the second is waited for when the first has settled. -/
def serial : Executor :=
  failing (.deferred [.pause 5] unknown) (.deferred [.pause 20] (.value (.obj [])))
    { pruneCollapsedSubtrees := true, maxParallelDepth := 0 }

/-- Both fields of the object are called before either settles. The second goes on until the field
below it has been let through, and then the first one fails. -/
def race : List Address :=
  List.replicate 5 [] ++ List.replicate 13 [0] ++ List.replicate 8 [0, 1] ++
    List.replicate 2 [0, 0]

theorem follow_race :
    (prompt.start collapsing collapse).map (fun (env, machine) =>
      (machine.follow env race).bind fun last =>
        (last.perform? env (.advance [0, 1])).map fun next =>
          (last.state.tree.isLive [.key "a"], last.state.log.calls.map Call.path,
            next.state.log.calls.map Call.path)) =
      .ok (some (false, [[.key "a"], failPath, slowPath],
        [[.key "a"], failPath, slowPath, effectPath])) := by
  cbv

/-- When and where a resolver is called, a deferred value is started, or something collapses. -/
def turningPoint? : Nat × Event → Option (Nat × String × Path)
  | (time, .called path _ _ _ _ _) => some (time, "called", path)
  | (time, .started path _) => some (time, "started", path)
  | (time, .wrote path _ true true) => some (time, "collapsed", path)
  | _ => none

theorem execute_serial :
    (serial.execute collapsing collapse 60).map (fun result =>
      result.map fun execution => execution.history.filterMap turningPoint?) =
      some (.ok [(0, "called", [.key "a"]), (0, "called", failPath), (0, "called", slowPath),
        (0, "started", failPath), (5, "collapsed", failPath), (5, "started", slowPath)]) := by
  cbv

end Sample

namespace Executor

/-- Where an object collapses between the check of a field and the call of its resolver, the
resolver is called below a null for all the pruning. Where it collapses between the call and the
start of a deferred value, the value is started below a null. -/
theorem effect_called_below_null :
    (∃ env machine steps last next,
      Sample.prompt.start Sample.collapsing Sample.collapse = .ok (env, machine) ∧
      Machine.Run env steps machine last ∧ last.perform? env (.advance [0, 1]) = some next ∧
      last.state.tree.isLive [.key "a"] = false ∧
      next.state.log.calls.map Call.path =
        last.state.log.calls.map Call.path ++ [Sample.effectPath]) ∧
    ∃ execution, Sample.serial.Reaches Sample.collapsing Sample.collapse (.ok execution) ∧
      execution.history.filterMap Sample.turningPoint? =
        [(0, "called", [.key "a"]), (0, "called", Sample.failPath),
          (0, "called", Sample.slowPath), (0, "started", Sample.failPath),
          (5, "collapsed", Sample.failPath), (5, "started", Sample.slowPath)] := by
  refine ⟨?_, Reaches.of_execute Sample.execute_serial⟩
  have hfollow := Sample.follow_race
  cases hs : Sample.prompt.start Sample.collapsing Sample.collapse with
  | error raised =>
    rw [hs] at hfollow
    cases hfollow
  | ok reached =>
    obtain ⟨env, machine⟩ := reached
    rw [hs] at hfollow
    obtain ⟨last, hlast, hcall⟩ := Option.bind_eq_some_iff.mp (Except.ok.inj hfollow)
    obtain ⟨next, move, hseen⟩ := Option.map_eq_some_iff.mp hcall
    obtain ⟨hlive, hcalls⟩ := Prod.mk.inj hseen
    obtain ⟨hbefore, hafter⟩ := Prod.mk.inj hcalls
    exact ⟨env, machine, _, last, next, rfl, Machine.run_of_follow hlast, move, hlive,
      by rw [hafter, hbefore]; rfl⟩

end Executor

end GraphQL
