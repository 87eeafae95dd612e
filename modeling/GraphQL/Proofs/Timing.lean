import GraphQL.Proofs.Accounting
import GraphQL.Proofs.Occurrence
import GraphQL.Proofs.PathOrder
import GraphQL.Proofs.Scheduling

/-!
# Timing and the order of errors

Errors are reported in the order in which values settle, and sorted by path at the end. Where every
error belongs to the place whose value it ends, each path has its errors from one step, so that
nothing of the order of arrival is left in the response. An error that says of itself where it
belongs, or one that is handed to the collector of another place, may meet others at its path: among
those the order of arrival stays, and it is the only thing by which the responses of two runs can
differ.
-/

namespace GraphQL

open Reference Response Strand

section Occurring

variable {env : Environment} {root : ObjectFrame} {top : List Selection}

/-- A settled value by what is done with it. -/
def Purpose.occurrence (site : Site) (value : FieldValue) : Purpose → Occurrence
  | complete => .value site value
  | enter type => .exposed site type value

namespace Work

/-- What the work is about occurs. -/
def Occurs (env : Environment) (root : ObjectFrame) (top : List Selection) : Work → Prop
  | select frame selections _ => GraphQL.Occurs env root top (.object frame selections)
  | prepare frame _ groups prepared =>
    (∀ group ∈ groups, GraphQL.Occurs env root top (.field frame group)) ∧
      ∀ entry ∈ prepared, GraphQL.Occurs env root top (.value entry.1 entry.2.settled)
  | field frame _ group => GraphQL.Occurs env root top (.field frame group)
  | settle site purpose resolution =>
    GraphQL.Occurs env root top (purpose.occurrence site resolution.settled)
  | await site purpose _ _ value => GraphQL.Occurs env root top (purpose.occurrence site value)
  | resume site purpose value => GraphQL.Occurs env root top (purpose.occurrence site value)
  | complete site content => ∃ value, GraphQL.Occurs env root top (.value site value) ∧
      site.shape env value = some (Shaped.of env site content site.type)

variable {state : State} {piece : Work} {deeds : List Deed} {outcome : Task}

/-- What a step leaves to do is about what occurs. -/
theorem Step.occurs (h : Step env state piece deeds outcome) (ho : piece.Occurs env root top) :
    ∀ left ∈ works outcome.strands, left.Occurs env root top := by
  cases h with
  | gatherFault | prepareFault | fieldFault | skip | null | refuse => exact fun _ hl => nomatch hl
  | @gather frame selections serial groups hg =>
    have hfield : ∀ group ∈ groups, GraphQL.Occurs env root top (.field frame group) :=
      fun group hm => .field ho hg hm
    exact forall_works_gathered ⟨hfield, fun _ he => nomatch he⟩ hfield
  | prepared => exact forall_works_prepared ho.2
  | @prepare frame group rest prepared found type hl =>
    refine forall_works_work ⟨fun other hm => ho.1 other (List.mem_cons_of_mem _ hm),
      fun entry he => ?_⟩
    rcases List.mem_append.mp he with he | he
    · exact ho.2 entry he
    · obtain rfl := List.mem_singleton.mp he
      exact .answer (ho.1 group List.mem_cons_self) hl
  | field hl => exact forall_works_work (.answer ho hl)
  | prepareDeclare | prepareAdmit | fieldDeclare | fieldAdmit | ready | queue | start | wake
  | settle | sleep | report => exact forall_works_work ho
  | @content site value content hr => exact forall_works_work ⟨value, ho, by rw [Site.shape, hr]⟩
  | enter hr => exact forall_works_work (.enter ho hr)
  | complete =>
    obtain ⟨value, ho, hshape⟩ := ho
    exact forall_works_shaped
      (fun itemType items hs place resolution hitem => .element ho (hs ▸ hshape) hitem)
      fun type value hs => .expose ho (hs ▸ hshape)

theorem Prunes.occurs (h : Prunes env state piece deeds outcome) (ho : piece.Occurs env root top) :
    ∀ left ∈ works outcome.strands, left.Occurs env root top := by
  cases h with
  | prepare =>
    exact forall_works_work ⟨fun other hm => ho.1 other (List.mem_cons_of_mem _ hm), ho.2⟩
  | field => exact fun _ hl => nomatch hl

theorem step_occurs (state : State) (ho : piece.Occurs env root top) :
    ∀ left ∈ works (piece.step env state).1.strands, left.Occurs env root top := by
  obtain ⟨deeds, -, hstep | hprune⟩ := step_account env state piece
  · exact hstep.occurs ho
  · exact hprune.occurs ho

end Work

namespace State

/-- The errors of each path are those with which what occurs there ends, and a path with errors has
been written. -/
structure Batched (env : Environment) (root : ObjectFrame) (top : List Selection) (state : State) :
    Prop where
  written : ∀ error ∈ state.tree.errors, ∃ event ∈ state.events, ∃ path,
    error.path = some path ∧ event.written? = some path
  ends : ∀ path, errorsAt (some path) state.tree.errors = [] ∨
    EndsWith env root top path (errorsAt (some path) state.tree.errors)

theorem errors_performAll (state : State) (deeds : List Deed) :
    (state.performAll deeds).tree.errors = state.tree.errors ++ (Deed.logs deeds).errors :=
  congrArg Log.errors (log_performAll state deeds)

namespace Batched

variable {state : State}

/-- Deeds that report nothing. -/
theorem mute (h : state.Batched env root top) {deeds : List Deed}
    (hd : (Deed.logs deeds).errors = []) : (state.performAll deeds).Batched env root top := by
  obtain ⟨more, hmore⟩ := state.events_performAll deeds
  have herrors : (state.performAll deeds).tree.errors = state.tree.errors := by
    rw [errors_performAll, hd, List.append_nil]
  refine ⟨fun error he => ?_, herrors ▸ h.ends⟩
  obtain ⟨event, hevent, path, hpath⟩ := h.written error (herrors ▸ he)
  exact ⟨event, hmore ▸ List.mem_append_left _ hevent, path, hpath⟩

/-- A site that was not written before ends with its errors and a null. -/
theorem null (h : state.Batched env root top) {site : Site} {errors : List ResponseError}
    (hb : Begun state.events site.path) (he : EndsWith env root top site.path errors)
    (hp : ∀ error ∈ errors, error.path = some site.path) :
    (state.performAll [.report errors, .write site.path .null site.type.isNonNull]).Batched
      env root top := by
  have hevents : (state.performAll
      [.report errors, .write site.path .null site.type.isNonNull]).events =
      state.events ++ [.wrote site.path .null site.type.isNonNull
        ((state.perform (.report errors)).tree.write? site.path .null site.type.isNonNull).isSome] := by
    simp
  have herrors : (state.performAll
      [.report errors, .write site.path .null site.type.isNonNull]).tree.errors =
      state.tree.errors ++ errors := by
    rw [errors_performAll, Work.logs_null]
  refine ⟨fun error hm => ?_, fun path => ?_⟩
  · rw [herrors] at hm
    rw [hevents]
    rcases List.mem_append.mp hm with hm | hm
    · obtain ⟨event, hevent, hpath⟩ := h.written error hm
      exact ⟨event, List.mem_append_left _ hevent, hpath⟩
    · exact ⟨_, List.mem_append_right _ (List.mem_singleton_self _), _, hp error hm, rfl⟩
  · rw [herrors, errorsAt_append]
    by_cases hsame : path = site.path
    · subst hsame
      have hnone : errorsAt (some site.path) state.tree.errors = [] := by
        refine List.eq_nil_iff_forall_not_mem.mpr fun error hm => ?_
        obtain ⟨hm, hpath⟩ := mem_errorsAt.mp hm
        obtain ⟨event, hevent, path, hown, hwritten⟩ := h.written error hm
        obtain rfl := Option.some.inj (hown.symm.trans hpath)
        exact hb.unwritten event hevent hwritten
      have hall : errorsAt (some site.path) errors = errors :=
        List.filter_eq_self.mpr fun error hm => by simpa using hp error hm
      rw [hnone, hall]
      exact .inr he
    · have hnone : errorsAt (some path) errors = [] := by
        refine List.eq_nil_iff_forall_not_mem.mpr fun error hm => ?_
        obtain ⟨hm, hpath⟩ := mem_errorsAt.mp hm
        exact hsame (Option.some.inj (hpath.symm.trans (hp error hm)))
      rw [hnone, List.append_nil]
      exact h.ends path

end Batched

end State

namespace Work

variable {state : State} {piece : Work} {deeds : List Deed} {outcome : Task}

/-- A plain step adds the errors of a path all at once. -/
theorem Step.batched (h : Step env state piece deeds outcome) (hk : Chronicled state [piece])
    (hp : piece.Plain env) (ho : piece.Occurs env root top)
    (hb : state.Batched env root top) : (state.performAll deeds).Batched env root top := by
  have hbegun : ∀ path ∈ piece.begun, Begun state.events path :=
    hk.begun piece (List.mem_singleton_self _)
  cases h with
  | gatherFault | prepareFault | prepareAdmit | fieldFault | fieldAdmit | prepared | skip | content
  | enter => exact hb
  | gather | prepareDeclare | fieldDeclare | ready | queue | start | wake | settle
  | sleep => exact hb.mute (by rfl)
  | prepare hl | field hl =>
    refine hb.mute ?_
    rw [logs_fieldDeeds]
    exact pushedBy_eq hl ▸ hp.pushed
  | report => exact hb.mute (by simpa [Deed.log, pushed] using hp.pushed)
  | @null site purpose value errors hr =>
    have hends : EndsWith env root top site.path errors := by
      cases purpose with
      | complete => exact .value ho (by rw [Site.shape, hr])
      | enter type => exact .exposed ho hr
    exact hb.null (hbegun _ (List.mem_singleton_self _)) hends
      (Site.ends_route (hp.unplaced site purpose value rfl) hr).placed
  | @refuse site type value items hr =>
    exact hb.null (hbegun _ (List.mem_singleton_self _)) (.refused ho hr)
      (site.ends_failure _).placed
  | @complete site content =>
    obtain ⟨value, ho, hshape⟩ := ho
    cases hs : Shaped.of env site content site.type with
    | null errors =>
      exact hb.null (hbegun _ (List.mem_singleton_self _)) (.value ho (hs ▸ hshape))
        (Shaped.ends_of hs).placed
    | leaf | list | object | fault => exact hb.mute (by rw [logs_shaped])

theorem Prunes.batched (h : Prunes env state piece deeds outcome)
    (hb : state.Batched env root top) : (state.performAll deeds).Batched env root top := by
  cases h with
  | prepare | field => exact hb.mute (by rfl)

end Work

namespace Machine

theorem RunBy.batched {first last : Machine} (h : RunBy env (Work.Plain env) first last)
    (hc : first.Coherent env) (hk : first.Chronicled)
    (ho : ∀ piece ∈ Strand.works first.task.strands, piece.Occurs env root top)
    (hb : first.state.Batched env root top) : last.state.Batched env root top := by
  induction h with
  | refl machine => exact hb
  | @advance machine next last address piece there holds move _ ih =>
    obtain ⟨left, right, deeds, outcome, hs, ht, hstate, hstep⟩ := advance_at there move
    have hchronicled : GraphQL.Chronicled machine.state [piece] := by
      unfold Machine.Chronicled at hk
      rw [hs, Strand.works_append, works_ok] at hk
      exact hk.single
    have hnext := hk.advance hc move
    rw [hs] at ho
    have hpiece : piece.Occurs env root top := ho piece (by simp)
    have hleft : ∀ other ∈ Strand.works outcome.strands, other.Occurs env root top := by
      rcases hstep with hstep | hstep
      · exact hstep.occurs hpiece
      · exact hstep.occurs hpiece
    refine ih (hc.advance move) hnext (ht.forall_works ho hleft) ?_
    rw [hstate]
    rcases hstep with hstep | hstep
    · exact hstep.batched hchronicled holds hpiece hb
    · exact hstep.batched hb
  | pass move _ ih =>
    obtain ⟨wake, -, rfl⟩ := pass_eq move
    have hr := hk.recorded
    exact ih hc ⟨⟨hr.disciplined, hr.alike, hr.nulls⟩, hk.begun, hk.fresh, hk.uncalled⟩ ho
      ⟨hb.written, hb.ends⟩

end Machine

end Occurring

/-- A machine that has ended well responds with its errors in the order of their paths. -/
theorem Machine.errors_of_result {last : Machine} {execution : Execution}
    (h : last.result? = some (.ok execution)) :
    execution.response.errors = sortErrors last.state.tree.errors := by
  obtain ⟨-, rfl⟩ := execution_of_result h
  rfl

namespace Executor

/-- Some run of plain steps ends with the execution. -/
def ReachesPlainly (executor : Executor) (schema : Schema) (request : Request)
    (execution : Execution) : Prop :=
  ∃ env machine last, executor.start schema request = .ok (env, machine) ∧
    Machine.RunBy env (Work.Plain env) machine last ∧ last.result? = some (.ok execution)

variable {a b : Executor} {schema : Schema} {request : Request} {x y : Execution}

theorem Reaches.plainly (h : a.Reaches schema request (.ok x)) (hq : a.registry.Quiet) :
    a.ReachesPlainly schema request x := by
  cases h with
  | @ended env machine last steps _ hs hr he =>
    obtain ⟨operation, rootType, rfl, rfl⟩ := start_ok hs
    refine ⟨_, _, last, hs, hr.plain hq fun piece hm => ?_, he⟩
    obtain rfl := List.mem_singleton.mp hm
    trivial

/-- The errors of each path in a response of a plain run. -/
theorem ReachesPlainly.ends (h : a.ReachesPlainly schema request x) :
    ∃ operation rootType, request.document.operation? request.operationName = .ok operation ∧
      schema.rootType (operation.withDefaults request.context) operation.kind = .ok rootType ∧
      (∀ error ∈ x.response.errors, error.path ≠ none) ∧
      ∀ path, errorsAt (some path) x.response.errors = [] ∨
        EndsWith (a.environment schema request operation)
          { path := [], type := rootType, value := request.root } operation.selections path
          (errorsAt (some path) x.response.errors) := by
  obtain ⟨env, machine, last, hs, hr, he⟩ := h
  obtain ⟨operation, rootType, ho, ht, rfl, rfl⟩ := start_found hs
  refine ⟨operation, rootType, ho, ht, ?_⟩
  have hoccurs : ∀ piece ∈ works (Machine.start operation rootType request.root).task.strands,
      piece.Occurs (a.environment schema request operation)
        { path := [], type := rootType, value := request.root } operation.selections := by
    intro piece hm
    obtain rfl := List.mem_singleton.mp hm
    exact .root
  have hbatched := hr.batched (coherent_start hs)
    (Machine.chronicled_start operation rootType request.root) hoccurs
    ⟨(fun _ he => nomatch he), fun _ => .inl rfl⟩
  rw [Machine.errors_of_result he]
  refine ⟨fun error hm hnone => ?_, fun path => ?_⟩
  · obtain ⟨event, -, path, hpath, -⟩ :=
      hbatched.written error ((sortErrors_perm _).mem_iff.mp hm)
    exact absurd (hpath.symm.trans hnone) (Option.some_ne_none path)
  · rw [errorsAt_sortErrors]
    exact hbatched.ends path

theorem Reaches.inPathOrder (h : a.Reaches schema request (.ok x)) :
    InPathOrder x.response.errors := by
  cases h with
  | ended hs hr he => exact Machine.errors_of_result he ▸ inPathOrder_sortErrors _

/-- Without pruning, runs of executors that differ in delays end alike. -/
theorem Retimed.answers (h : a.Retimed b) (ha : a.config.pruneCollapsedSubtrees = false)
    (hb : b.config.pruneCollapsedSubtrees = false) {result other : Except Fault Execution}
    (hx : a.Reaches schema request result) (hy : b.Reaches schema request other) :
    (Execution.answer result).Agrees Eq (Execution.answer other) := by
  obtain ⟨depth, hreference⟩ := (hx.refines ha).1
  have hfinished := hreference.symm_eq.finished (Execution.answer_finished result)
  have hsame := h.reference (Nat.le_refl depth) hfinished
  exact hreference.symm_eq.trans_eq (hsame.trans_eq ((hy.refines hb).2 depth (hsame.finished hfinished)))

/-- **What timing can change of a response.** Let two executors differ in delays and concurrency,
and let a run of each, without pruning, end well. Then the data are the same, and the same paths
have errors, in the same order. Only the errors of one path may come in another order; and where
each error belongs to the place whose value it ends, not even those do. -/
theorem response_retimed (h : a.Retimed b) (ha : a.config.pruneCollapsedSubtrees = false)
    (hb : b.config.pruneCollapsedSubtrees = false) (hx : a.Reaches schema request (.ok x))
    (hy : b.Reaches schema request (.ok y)) :
    x.response.data = y.response.data ∧
      x.response.errors.map ResponseError.path = y.response.errors.map ResponseError.path ∧
      (∀ path, (errorsAt path x.response.errors).Perm (errorsAt path y.response.errors)) ∧
      (a.ReachesPlainly schema request x → b.ReachesPlainly schema request y →
        x.response = y.response) := by
  obtain ⟨hdata, hperm⟩ : x.response.data = y.response.data ∧
      x.response.errors.Perm y.response.errors := by
    cases h.answers ha hb hx hy with
    | done hdata hlog => exact ⟨hdata, hlog.errors⟩
  refine ⟨hdata, hx.inPathOrder.path_eq_of_perm hy.inPathOrder hperm, fun path => hperm.filter _,
    fun hpx hpy => ?_⟩
  obtain ⟨operation, rootType, ho, ht, hplaced, hends⟩ := hpx.ends
  obtain ⟨other, otherType, ho', ht', -, hends'⟩ := hpy.ends
  obtain rfl := Except.ok.inj (ho.symm.trans ho')
  obtain rfl := Except.ok.inj (ht.symm.trans ht')
  have herrors : x.response.errors = y.response.errors := by
    refine hx.inPathOrder.eq_of_errorsAt hy.inPathOrder fun path => ?_
    have hsame : (errorsAt path x.response.errors).Perm (errorsAt path y.response.errors) :=
      hperm.filter _
    cases path with
    | none =>
      have hnone : errorsAt none x.response.errors = [] :=
        List.eq_nil_iff_forall_not_mem.mpr fun error hm =>
          hplaced error (mem_errorsAt.mp hm).1 (mem_errorsAt.mp hm).2
      rw [hnone] at hsame ⊢
      exact hsame.nil_eq
    | some path =>
      rcases hends path with hnone | hx
      · rw [hnone] at hsame ⊢
        exact hsame.nil_eq
      · rcases hends' path with hnone | hy
        · rw [hnone] at hsame ⊢
          exact hsame.eq_nil
        · exact hx.unique (h.environment schema request operation) rfl hy rfl
  cases hrx : x.response with | mk data errors
  cases hry : y.response with | mk data' errors'
  rw [hrx, hry] at hdata herrors
  exact congrArg₂ _ hdata herrors

end Executor

namespace Sample

theorem execute_slow (name : Resolution) (hn : name = .ready unknown ∨ name = .deferred [.pause 5] unknown) :
    ((executor name).execute schema request 30).map (Except.map fun _ => ()) = some (.ok ()) := by
  rcases hn with rfl | rfl
  · cbv
  · cbv

/-- Tags that settle one by one. -/
def tagged : Schema where
  queryType := some "Query"
  types := [.object { name := "Query", fields :=
      [{ name := "tags", type := .list (.late "String"), extras := [.errors] }] },
    .scalar { name := "String" }]

/-- Two tags, each of which is reported to be stale before it settles. -/
def tags (first second : Nat) : Executor where
  registry := {
    resolvers := [("Query.tags", { resolve := fun _ _ _ _ => .ready (.list
      [.deferred [.pause first, .report [{ message := "first is stale" }]] (.value (.str "a")),
        .deferred [.pause second, .report [{ message := "second is stale" }]]
          (.value (.str "b"))]) })] }

def tagList : Request where
  document := { operations := [{ selections := [.field { name := "tags" }] }] }

theorem tags_retimed (first second third fourth : Nat) :
    (tags first second).Retimed (tags third fourth) := by
  have hitem : ∀ wait later report value,
      (Resolution.deferred [.pause wait, .report report] value).Retimed
        (.deferred [.pause later, .report report] value) :=
    fun _ _ _ _ => .intro (.refl _) (.refl _)
  exact ⟨.of_resolvers (.cons ⟨rfl, fun _ _ _ _ =>
    ⟨.refl _, .list (.cons (hitem _ _ _ _) (.cons (hitem _ _ _ _) .nil))⟩⟩ .nil), rfl⟩

theorem execute_tags :
    ((tags 20 10).execute tagged tagList 30).map (Except.map fun execution =>
      execution.response.errors.map ResponseError.message) =
      some (.ok ["second is stale", "first is stale"]) ∧
    ((tags 10 20).execute tagged tagList 30).map (Except.map fun execution =>
      execution.response.errors.map ResponseError.message) =
      some (.ok ["first is stale", "second is stale"]) := by
  constructor
  · cbv
  · cbv

end Sample

namespace Executor

/-- The theorem at a user whose name is not known, at once or after a while. -/
theorem response_of_slow_name : ∃ x y,
    Reaches (Sample.executor (.ready Sample.unknown)) Sample.schema Sample.request (.ok x) ∧
    Reaches (Sample.executor (.deferred [.pause 5] Sample.unknown)) Sample.schema Sample.request
      (.ok y) ∧
    x.response = y.response := by
  obtain ⟨x, hx, -⟩ := Reaches.of_execute (Sample.execute_slow _ (.inl rfl))
  obtain ⟨y, hy, -⟩ := Reaches.of_execute (Sample.execute_slow _ (.inr rfl))
  have hname : (Resolution.ready Sample.unknown).Retimed (.deferred [.pause 5] Sample.unknown) :=
    .intro (.refl _) (.refl _)
  have hretimed : (Sample.executor (.ready Sample.unknown)).Retimed
      (Sample.executor (.deferred [.pause 5] Sample.unknown)) :=
    ⟨Sample.registry_retimed hname, rfl⟩
  refine ⟨x, y, hx, hy, (response_retimed hretimed rfl rfl hx hy).2.2.2 (hx.plainly ?_)
    (hy.plainly ?_)⟩
  · exact Registry.quiet_of_resolvers (Sample.quiet_users (.ready (.error rfl)))
  · exact Registry.quiet_of_resolvers (Sample.quiet_users (.deferred (by simp [Stage.reports])
      (.error rfl)))

/-- Errors of one path may be told apart by when they came: the report of the first tag is the last
one if the tag settles after the second. -/
theorem stale_tags_reordered :
    (Sample.tags 20 10).Retimed (Sample.tags 10 20) ∧
    ∃ x y, (Sample.tags 20 10).Reaches Sample.tagged Sample.tagList (.ok x) ∧
      (Sample.tags 10 20).Reaches Sample.tagged Sample.tagList (.ok y) ∧
      x.response.errors.map ResponseError.message = ["second is stale", "first is stale"] ∧
      y.response.errors.map ResponseError.message = ["first is stale", "second is stale"] := by
  obtain ⟨x, hx, hmessages⟩ := Reaches.of_execute Sample.execute_tags.1
  obtain ⟨y, hy, hmessages'⟩ := Reaches.of_execute Sample.execute_tags.2
  exact ⟨Sample.tags_retimed 20 10 10 20, x, y, hx, hy, hmessages, hmessages'⟩

end Executor

end GraphQL
