import GraphQL.Proofs.Promises

/-!
# Simulation

A step of work keeps its promise: with what the step has reported and called, the work that it
leaves comes to results that amount to those of the work that took it. From this, what a machine as
a whole comes to is the same before and after a step, as long as no field is left out.
-/

namespace GraphQL

open Evaluation Reference Strand

namespace Work

variable {env : Environment} {state : State} {piece : Work}

/-- A site that ends with a null. -/
theorem joins_null (hc : Coherent env state.tree [piece]) {site : Site}
    (hs : site ∈ piece.sites env)
    (errors : List ResponseError) :
    Joins state.tree
      (state.performAll [.report errors, .write site.path .null site.type.isNonNull]).tree
      [(site.path, fun _ => .null site.type.isNonNull)] [] := by
  have hreq := isRequired_site hc hs
  have hw := written_site hc hs .null site.type.isNonNull
  have hr := hw.regular hc.regular trivial fun _ => hreq
  have ht : (state.performAll [.report errors, .write site.path .null site.type.isNonNull]).tree =
      (state.tree.write site.path .null site.type.isNonNull).report errors :=
    ResultTree.report_write _ _ _ _ _
  rw [ht]
  rw [← hreq] at hw hr ⊢
  exact .of_null hw hc.regular hr (ResultTree.alike_report _ _)

theorem joins_leaf (hc : Coherent env state.tree [piece]) {site : Site}
    (hs : site ∈ piece.sites env)
    (output : Json) :
    Joins state.tree (state.performAll [.write site.path (.leaf output) false]).tree
      [(site.path, fun _ => .value output)] [] :=
  .of_leaf (written_site hc hs _ _) hc.regular (.refl _)

theorem joins_list (hc : Coherent env state.tree [piece]) {site : Site}
    (hs : site ∈ piece.sites env)
    (itemType : TypeRef) (items : List Resolution) {completed : List Completed}
    (hl : completed.length = items.length) :
    Joins state.tree (state.performAll ((Shaped.list itemType items).deeds env site)).tree
      [(site.path, fun _ => .list site.type.isNonNull completed)]
      (.fixed ((List.range items.length).map site.path.index) completed) := by
  have hw := written_site hc hs (.list items.length) false
  have htree : (state.performAll ((Shaped.list itemType items).deeds env site)).tree =
      (state.tree.write site.path (.list items.length) false).recordAll
        (elements site itemType items.length) := State.tree_declareAll _ _
  rw [htree, ← isRequired_site hc hs]
  refine .of_list hw hc.regular (ResultTree.recordAll_data _ _) (fun other ho => ?_) hl
  rw [ResultTree.isRequired, ResultTree.declaredType?_recordAll_other, ← hw.isRequired_eq]
  · rfl
  · rintro element he rfl
    obtain ⟨place, -, rfl⟩ := List.mem_map.mp he
    rcases ho with ho | ho
    · exact ho (List.prefix_append _ _)
    · simp [Site.item, Path.index] at ho

theorem joins_object {frame : ObjectFrame} {selections : List Selection} {serial : Bool}
    (hc : Coherent env state.tree [select frame selections serial]) {groups : List FieldGroup}
    (hg : Gathering.collect env.schema env.document env.context frame.type selections =
      .ok groups) {completed : List Completed} (hl : completed.length = groups.length) :
    Joins state.tree
      (state.performAll [.write frame.path (.object (groups.map FieldGroup.key)) false]).tree
      [(frame.path, fun required => .object required ((groups.map FieldGroup.key).zip completed))]
      (.fixed ((groups.map FieldGroup.key).map frame.path.key) completed) :=
  .of_object
    (ResultTree.written hc.regular (hc.isOpen frame.path (by simp [owned])) _ fun h => nomatch h)
    hc.regular (Gathering.nodup_collect hg) (.refl _) (by simpa using hl)

theorem get_fixed_const {paths : List Path} {completed : List Completed} {path : Path}
    (a b : Bool) :
    (Results.fixed paths completed).get (fun _ => a) path =
      (Results.fixed paths completed).get (fun _ => b) path := by
  induction paths generalizing completed with
  | nil => rfl
  | cons first rest ih =>
    cases completed with
    | nil => rfl
    | cons own others =>
      simp only [Results.fixed, List.zipWith_cons_cons, Results.get]
      rw [show Results.get (fun _ => a) (List.zipWith _ rest others) path =
        Results.get (fun _ => b) (List.zipWith _ rest others) path from ih]

/-- Declaring the type of a field leaves what work comes to. -/
theorem joins_declare (hc : Coherent env state.tree [piece]) {path : Path} (type : TypeRef)
    (hm : path ∈ piece.owned) {completed : List Completed}
    (hl : completed.length = piece.owned.length) :
    Joins state.tree (state.performAll [.declare path type]).tree
      (.fixed piece.owned completed) (.fixed piece.owned completed) :=
  .of_record hc.regular (hc.isOpen _ (by simpa using hm)) (.refl _)
    (by rwa [Results.paths_fixed hl]) get_fixed_const

/-- What calling the resolver of a field reports and calls. -/
theorem logs_fieldDeeds (frame : ObjectFrame) (group : FieldGroup) (found : FieldLookup)
    (type : TypeRef) :
    Deed.logs (fieldDeeds env frame group found type) =
      { calls := (answer env frame group found type).2 } ++
        { errors := collected (arguments env frame group found).collector
            (answer env frame group found type).1.reports } := by
  unfold fieldDeeds answer
  cases found with
  | introspection field =>
    cases env.config.tracing <;> ext1 <;> simp [Deed.log, Event.calls, Reply.ready]
  | ordinary definition =>
    cases env.registry.resolver? frame.type.name group.node.name with
    | none => cases env.config.tracing <;> ext1 <;> simp [Deed.log, Event.calls, Reply.ready]
    | some entry => cases env.config.tracing <;> ext1 <;> simp [Deed.log, Event.calls]

theorem logs_report (errors : List ResponseError) : Deed.logs [.report errors] = { errors } := by
  ext1 <;> simp [Deed.log]

theorem logs_null (site : Site) (errors : List ResponseError) :
    Deed.logs [.report errors, .write site.path .null site.type.isNonNull] = { errors } := by
  ext1 <;> simp [Deed.log]

/-- Completing a value reports the errors of its null and calls nothing. -/
theorem logs_shaped (site : Site) (shaped : Shaped) :
    Deed.logs (shaped.deeds env site) =
      match shaped with
      | .null errors => { errors }
      | _ => {} := by
  cases shaped with
  | null errors => exact logs_null site errors
  | leaf output => rfl
  | list itemType items =>
    have hdeclare : ∀ sites : List Site,
        Deed.logs (sites.map fun element => .declare element.path element.type) = {} := by
      intro sites
      induction sites with
      | nil => rfl
      | cons first rest ih => rw [List.map_cons, Deed.logs_cons, ih]; rfl
    rw [Shaped.deeds, Deed.logs_cons, hdeclare]
    rfl
  | object type value =>
    rw [Shaped.deeds, Shaped.asked]
    cases env.registry.authorizer? type.name <;> rfl
  | fault raised => rfl

/-- Gathering leads to the objects inside, which may hold one object less inside each other. -/
def cost : Work → Nat
  | select _ _ _ => 1
  | _ => 0

theorem cost_cases (env : Environment) (piece : Work) :
    piece.cost = 0 ∨ piece.cost = 1 ∧ piece.promise env 0 = .unfinished := by
  cases piece with
  | select frame selections serial => exact .inr ⟨rfl, rfl⟩
  | _ => exact .inl rfl

variable {deeds : List Deed} {outcome : Task} {depth : Nat}

/-- A step that passes a site on. -/
theorem agrees_site {tree next : ResultTree} (ha : tree.Alike next) {path : Path}
    {x y : Evaluation Completed} {log : Log} (h : x = y.after log) :
    (placed path x).Agrees (Joins tree next) ((placed path y).after log) :=
  .of_eq (by rw [h, placed, placed, after_map]) (Joins.of_alike ha)

theorem agrees_ended {tree next : ResultTree} {path : Path} {completed : Completed} {log : Log}
    (h : Joins tree next [(path, fun _ => completed)] []) :
    (placed path (.done completed log)).Agrees (Joins tree next)
      ((promises env depth Task.done.strands).after log) :=
  .done h (by rw [Log.append_empty]; exact .refl _)

/-- A field that has been answered is a value that has yet to settle. -/
theorem field_eq (site : Site) (reply : Reply) :
    Reference.field env (env.fieldsAt depth) (site, reply) =
      (awaited env depth site .complete reply.resolution.reports reply.resolution.settled).after
        { errors := collected site.field.collector reply.reports } := rfl

theorem field_answered (prepared : Site × Resolution) :
    Reference.field env (env.fieldsAt depth) (answered prepared) =
      awaited env depth prepared.1 .complete prepared.2.reports prepared.2.settled := by
  rw [answered, field_eq, collected_nil]
  exact after_empty _

theorem awaited_nil (site : Site) (purpose : Purpose) (value : FieldValue) :
    awaited env depth site purpose [] value =
      routed site value (proceed env depth site purpose) := by
  rw [awaited, collected_nil]
  exact after_empty _

/-- What a value that has yet to settle reports first may as well have been reported. -/
theorem awaited_append (site : Site) (purpose : Purpose) (first rest : List ResponseError)
    (value : FieldValue) :
    awaited env depth site purpose (first ++ rest) value =
      (awaited env depth site purpose rest value).after
        { errors := collected (if purpose.isAuthorizing then none else site.field.collector)
            first } := by
  rw [awaited, awaited, after_after, collected_append]
  rfl

theorem prepare_eq {frame : ObjectFrame} {group : FieldGroup} {found : FieldLookup} {type : TypeRef}
    (hl : lookup env frame group = .ok (found, type)) :
    Reference.prepare env frame group =
      .done (site env frame group found type, (answer env frame group found type).1)
        { calls := (answer env frame group found type).2 } := by
  rw [Reference.prepare, hl]

theorem prepare_fault {frame : ObjectFrame} {group : FieldGroup} {raised : Fault}
    (hl : lookup env frame group = .error raised) :
    Reference.prepare env frame group = .fault raised := by
  rw [Reference.prepare, hl]

/-- The selections of an object promise what its groups come to. -/
theorem promise_select {frame : ObjectFrame} {selections : List Selection} {serial : Bool}
    {groups : List FieldGroup}
    (hg : Gathering.collect env.schema env.document env.context frame.type selections =
      .ok groups) :
    (select frame selections serial).promise env (depth + 1) =
      (completeAll env frame groups serial (Reference.field env (env.fieldsAt depth))).map
        fun completed => [(frame.path,
          fun required => .object required ((groups.map FieldGroup.key).zip completed))] := by
  simp only [promise, Reference.select, hg, map_map]
  rfl

theorem promises_groups (frame : ObjectFrame) (groups : List FieldGroup) (serial : Bool) :
    promises env depth (if serial then Task.inOrder ((groups.map (field frame .declare)).map .work)
      else Task.work (.prepare frame .declare groups [])).strands =
      (completeAll env frame groups serial (Reference.field env (env.fieldsAt depth))).map
        (Results.fixed ((groups.map FieldGroup.key).map frame.path.key)) := by
  cases serial with
  | true =>
    rw [if_pos rfl, Task.strands_inOrder_work, promises_placed (fun _ => rfl), List.map_map]
    rfl
  | false =>
    simp only [Bool.false_eq_true, if_false, Task.strands, promises_single, promise, completeAll,
      owned, List.map_nil, List.nil_append, List.map_map]
    rfl

/-- A field promises the same before and after it has been prepared. -/
theorem promise_prepare {frame : ObjectFrame} {group : FieldGroup} {rest : List FieldGroup}
    {prepared : List (Site × Resolution)} {found : FieldLookup} {type : TypeRef}
    (hl : lookup env frame group = .ok (found, type)) :
    ((prepare frame .call (group :: rest) prepared).promise env depth).Agrees Eq
      (((prepare frame .declare rest (prepared ++ [(site env frame group found type,
        (answer env frame group found type).1.resolution)])).promise env depth).after
          (Deed.logs (fieldDeeds env frame group found type))) := by
  rw [logs_fieldDeeds, ← after_after, promise, promise, owned_prepared, after_map, after_map]
  refine Agrees.map (R := Eq) ?_ fun _ _ h => congrArg _ h
  simp only [List.map_cons, all_cons, prepare_eq hl, bind_done, bind_map, ← after_bind]
  refine Agrees.after ?_ (.refl _)
  refine Agrees.trans_eq ((Agrees.refl _).bind fun more others hm => ?_)
    (after_bind_agrees _ _).symm_eq
  subst hm
  have hfield : Reference.field env (env.fieldsAt depth)
      (site env frame group found type, (answer env frame group found type).1) =
        (Reference.field env (env.fieldsAt depth) (answered (site env frame group found type,
          (answer env frame group found type).1.resolution))).after
            { errors := collected (arguments env frame group found).collector
                (answer env frame group found type).1.reports } := by
    rw [field_answered, field_eq]
    rfl
  simp only [List.map_append, List.map_cons, List.map_nil, hfield, List.append_assoc,
    List.cons_append, List.nil_append]
  exact all_after_agrees _ _ _ _

/-- The completion of a list keeps the promise of its elements. -/
theorem agrees_list (hc : Coherent env state.tree [piece]) {site : Site}
    (hs : site ∈ piece.sites env) (itemType : TypeRef) (items : List Resolution) :
    (placed site.path ((Shaped.list itemType items).evaluation env (env.fieldsAt depth) site)).Agrees
      (Joins state.tree (state.performAll ((Shaped.list itemType items).deeds env site)).tree)
      ((promises env depth ((Shaped.list itemType items).outcome env site).strands).after {}) := by
  have helements : ((elements site itemType items.length).zip items).map (fun element =>
      settled element.1 element.2
        (Reference.complete env (env.fieldsAt depth) itemType element.1)) =
      ((elements site itemType items.length).zip items).map fun element =>
        awaited env depth element.1 .complete element.2.reports element.2.settled := by
    refine List.map_congr_left fun element he => ?_
    obtain ⟨place, -, hplace⟩ := List.mem_map.mp (List.of_mem_zip he).1
    have htype : element.1.type = itemType := by rw [← hplace]; rfl
    rw [← htype]
    rfl
  have hpaths : ((elements site itemType items.length).zip items).map
      (fun element => element.1.path) = (List.range items.length).map site.path.index := by
    have hfirst := congrArg (List.map Site.path) (settling_fst site itemType items)
    rw [List.map_map, elements, List.map_map] at hfirst
    exact hfirst
  rw [after_empty, Shaped.outcome, Task.strands_dispatch_work, Shaped.settling,
    promises_placed (fun _ => rfl), Shaped.evaluation, helements, placed, map_map, hpaths]
  refine agrees_map_map _ fun completed _ hd => joins_list hc hs itemType items ?_
  have hlength := all_length hd
  simpa [elements] using hlength

/-- The completion of a value keeps the promise of its shape. -/
theorem agrees_shaped (hc : Coherent env state.tree [piece]) {site : Site}
    (hs : site ∈ piece.sites env)
    (shaped : Shaped) :
    (placed site.path (shaped.evaluation env (env.fieldsAt depth) site)).Agrees
      (Joins state.tree (state.performAll (shaped.deeds env site)).tree)
      ((promises env depth (shaped.outcome env site).strands).after
        (Deed.logs (shaped.deeds env site))) := by
  rw [logs_shaped]
  cases shaped with
  | null errors => exact agrees_ended (joins_null hc hs errors)
  | leaf output => exact agrees_ended (joins_leaf hc hs output)
  | list itemType items => exact agrees_list hc hs itemType items
  | object type value =>
    rw [Shaped.outcome, promises_work]
    refine agrees_site (alike_asked site type value) ?_
    rw [after_empty]
    exact (after_empty _).symm
  | fault raised => exact .fault raised

/-- A step that passes work on and neither declares nor writes. -/
theorem agrees_work (ha : state.tree.Alike (state.performAll deeds).tree) {left : Work}
    (h : piece.promise env depth = (left.promise env depth).after (Deed.logs deeds)) :
    (piece.promise env depth).Agrees (Joins state.tree (state.performAll deeds).tree)
      ((promises env depth (Task.work left).strands).after (Deed.logs deeds)) := by
  rw [promises_work]
  exact .of_eq h (Joins.of_alike ha)

/-- A step that declares the type of a field and passes the work on. -/
theorem agrees_declare (hc : Coherent env state.tree [piece]) {path : Path} (type : TypeRef)
    (hm : path ∈ piece.owned) {left : Work} (h : piece.promise env depth = left.promise env depth)
    (hfixed : ∀ own log, piece.promise env depth = .done own log →
      ∃ completed, own = .fixed piece.owned completed ∧ completed.length = piece.owned.length) :
    (piece.promise env depth).Agrees
      (Joins state.tree (state.performAll [.declare path type]).tree)
      ((promises env depth (Task.work left).strands).after
        (Deed.logs [.declare path type])) := by
  have hlog : Deed.logs [.declare path type] = {} := rfl
  rw [promises_work, hlog, after_empty, ← h]
  refine (Agrees.refl _).refine fun own new log hd he => ?_
  subst he
  obtain ⟨completed, rfl, hlength⟩ := hfixed own log hd
  exact joins_declare hc type hm hlength

/-- When all fields of an object are prepared, they promise what their values come to. -/
theorem promise_prepared (frame : ObjectFrame) (phase : Phase)
    (prepared : List (Site × Resolution)) :
    (prepare frame phase [] prepared).promise env depth =
      promises env depth (Task.dispatch env.config.maxParallelDepth frame.path.length
        ((prepared.map fun entry => Work.settle entry.1 .complete entry.2).map .work)).strands := by
  have hfields : (prepared.map answered).map (Reference.field env (env.fieldsAt depth)) =
      prepared.map fun entry =>
        awaited env depth entry.1 .complete entry.2.reports entry.2.settled := by
    rw [List.map_map]
    exact List.map_congr_left fun entry _ => field_answered entry
  rw [Task.strands_dispatch_work, promises_placed (fun _ => rfl)]
  simp only [promise, owned, List.map_nil, all_nil, bind_done, List.append_nil, hfields,
    after_empty]

/-- A field that is completed on its own promises the same before and after its resolver has been
called. -/
theorem promise_field {frame : ObjectFrame} {group : FieldGroup} {found : FieldLookup}
    {type : TypeRef} (hl : lookup env frame group = .ok (found, type)) :
    (field frame .call group).promise env depth =
      ((settle (site env frame group found type) .complete
        (answer env frame group found type).1.resolution).promise env depth).after
          (Deed.logs (fieldDeeds env frame group found type)) := by
  rw [promise, prepare_eq hl, bind_done, field_eq, after_after, logs_fieldDeeds, promise, placed,
    placed, after_map]
  rfl

theorem promise_field_done {frame : ObjectFrame} {phase : Phase} {group : FieldGroup}
    {results : Results} {log : Log}
    (h : (field frame phase group).promise env depth = .done results log) :
    ∃ completed, results = .fixed (field frame phase group).owned completed ∧
      completed.length = (field frame phase group).owned.length := by
  obtain ⟨completed, -, rfl⟩ := map_eq_done h
  exact ⟨[completed], rfl, rfl⟩

/-- A step keeps the promise of the work that takes it. -/
theorem Step.agrees (h : Step env state piece deeds outcome) (hc : Coherent env state.tree [piece])
    (depth : Nat) :
    (piece.promise env (depth + piece.cost)).Agrees
      (Joins state.tree (state.performAll deeds).tree)
      ((promises env depth outcome.strands).after (Deed.logs deeds)) := by
  cases h with
  | @gatherFault frame selections serial raised hg =>
    simp only [cost, promise, Reference.select, hg]
    exact .fault raised
  | @gather frame selections serial groups hg =>
    have hlog : Deed.logs [.write frame.path (.object (groups.map FieldGroup.key)) false] = {} :=
      rfl
    rw [hlog, after_empty, cost, promise_select hg, promises_groups]
    exact agrees_map_map _ fun completed log hd => joins_object hc hg (completeAll_length hd)
  | @prepared frame phase prepared =>
    exact .of_eq ((promise_prepared frame phase prepared).trans (after_empty _).symm)
      (Joins.of_alike (.refl _))
  | prepareFault _ hl =>
    simp only [cost, promise, List.map_cons, all_cons, prepare_fault hl]
    exact .fault _
  | prepareDeclare hl =>
    exact agrees_declare hc _ (by simp [owned]) rfl fun _ _ hd => promise_prepare_done hd
  | prepareAdmit | fieldAdmit | queue | start | wake | sleep =>
    exact agrees_work ⟨rfl, rfl⟩ (after_empty _).symm
  | @prepare frame group rest prepared found type hl =>
    rw [promises_work]
    refine (promise_prepare hl).refine fun own new log _ he => ?_
    subst he
    exact Joins.of_alike (alike_fieldDeeds frame group found type) own
  | fieldFault _ hl =>
    simp only [cost, promise, prepare_fault hl]
    exact .fault _
  | fieldDeclare hl =>
    exact agrees_declare hc _ (List.mem_singleton.mpr rfl) rfl fun _ _ hd => promise_field_done hd
  | @field frame group found type hl =>
    exact agrees_work (alike_fieldDeeds frame group found type) (promise_field hl)
  | @ready site purpose value | @settle site purpose value =>
    rw [promises_work]
    exact agrees_site ⟨rfl, rfl⟩ ((awaited_nil site purpose value).trans (after_empty _).symm)
  | @report site purpose errors rest value =>
    rw [promises_work, logs_report]
    exact agrees_site ⟨rfl, rfl⟩
      (awaited_append site purpose errors (rest.flatMap Stage.reports) value)
  | @skip site purpose value hr =>
    simp only [promise, routed, hr]
    exact agrees_ended (Joins.of_absent (.refl _))
  | @null site purpose value errors hr =>
    rw [logs_null]
    simp only [promise, routed, hr]
    exact agrees_ended (joins_null hc (List.mem_singleton.mpr rfl) errors)
  | @content site value content hr =>
    rw [promises_work]
    refine agrees_site (.refl _) ?_
    simp only [routed, hr, proceed, Deed.logs_nil, after_empty, Nat.add_zero, cost]
  | @refuse site type value items hr =>
    rw [logs_null]
    simp only [promise, routed, hr, proceed, entered]
    exact agrees_ended (joins_null hc (List.mem_singleton.mpr rfl) _)
  | @enter site type value exposed hr =>
    rw [promises_work]
    simp only [cost, promise, routed, hr, proceed, entered, placed, map_map, Deed.logs_nil,
      after_empty, Nat.add_zero]
    refine agrees_map_map _ fun fields _ _ => Joins.of_eq (.refl _) ?_
    rw [isRequired_site hc (List.mem_singleton.mpr rfl)]
  | @complete site content =>
    rw [promise, Shaped.complete_evaluation]
    exact agrees_shaped hc (List.mem_singleton.mpr rfl) _

theorem proceed_settles {more : Nat} (hd : depth ≤ more) (site : Site) (purpose : Purpose)
    {content content' : Content} (hc : content.Retimed content') :
    (proceed env depth site purpose content).Settles Eq
      (proceed env more site purpose content') := by
  have hfields : ∀ frame selections,
      (env.fieldsAt depth frame selections).Settles Eq (env.fieldsAt more frame selections) :=
    fun frame selections => select_settles (.refl env) hd frame selections false
  cases purpose with
  | complete => exact complete_settles (.refl env) hfields site.type site hc
  | enter type =>
    cases hc with
    | items each => exact .refl _
    | value value => exact (hfields _ _).map fun _ _ h => congrArg _ h

/-- What work promises stays the same at every greater depth. -/
theorem promise_settles {more : Nat} (hd : depth ≤ more) (piece : Work) :
    (piece.promise env depth).Settles Eq (piece.promise env more) := by
  have hfield : ∀ prepared, (Reference.field env (env.fieldsAt depth) prepared).Settles Eq
      (Reference.field env (env.fieldsAt more) prepared) := fun prepared =>
    field_settles (.refl env) (fun frame selections => select_settles (.refl env) hd _ _ _) rfl
      (.refl _)
  have hrouted : ∀ site purpose value,
      (routed site value (proceed env depth site purpose)).Settles Eq
        (routed site value (proceed env more site purpose)) := fun site purpose value =>
    routed_settles site (.refl value) fun _ _ hc => proceed_settles hd site purpose hc
  cases piece with
  | select frame selections serial =>
    exact (select_settles (.refl env) hd frame selections serial).map fun _ _ h => by rw [h]
  | prepare frame phase groups prepared =>
    refine Settles.map (R := Eq) ?_ fun _ _ h => congrArg _ h
    refine (Settles.refl _).bind fun fields others h => ?_
    subst h
    have hall : List.Forall₂ (Settles Eq)
        ((prepared.map answered ++ fields).map (Reference.field env (env.fieldsAt depth)))
        ((prepared.map answered ++ fields).map (Reference.field env (env.fieldsAt more))) := by
      simp only [List.forall₂_map_left_iff, List.forall₂_map_right_iff, List.forall₂_same]
      exact fun prepared _ => hfield prepared
    have := settles_all hall
    rwa [List.forall₂_eq_eq_eq] at this
  | field frame phase group =>
    refine Settles.map (R := Eq) ((Settles.refl _).bind fun prepared other h => ?_)
      fun _ _ h => by rw [h]
    exact h ▸ hfield prepared
  | settle site purpose resolution =>
    exact ((hrouted _ _ _).after (.refl _)).map fun _ _ h => by rw [h]
  | await site purpose progress stages value =>
    exact ((hrouted _ _ _).after (.refl _)).map fun _ _ h => by rw [h]
  | resume site purpose value => exact (hrouted _ _ _).map fun _ _ h => by rw [h]
  | complete site content =>
    exact (proceed_settles hd site .complete (Content.Retimed.refl content)).map
      fun _ _ h => by rw [h]

end Work

theorem Strand.promises_settles {env : Environment} {depth more : Nat} (hd : depth ≤ more)
    (strands : List Strand) :
    (promises env depth strands).Settles Eq (promises env more strands) := by
  induction strands with
  | nil => exact .refl _
  | cons strand rest ih =>
    cases strand with
    | error raised => exact .refl _
    | ok piece =>
      refine (Work.promise_settles hd piece).bind fun own others h => ?_
      subst h
      exact ih.map fun _ _ h => congrArg _ h

namespace Machine

variable {env : Environment}

/-- What a machine comes to if its work comes to what it promises. -/
def forecast (env : Environment) (depth : Nat) (machine : Machine) : Evaluation Completed :=
  ((promises env depth machine.task.strands).map machine.state.tree.read).after machine.state.log

/-- A step in the middle of other work: where what it does keeps the results, everything does. -/
theorem settles_middle {left left' own new right right' : Evaluation Results}
    {R : Results → Results → Prop} (f g : Results → Completed) (hl : left.Settles Eq left')
    (ho : own.Settles R new) (hr : right.Settles Eq right')
    (h : ∀ a b c d, (∃ log, left = .done a log) → (∃ log, right = .done d log) → R b c →
      f (a ++ b ++ d) = g (a ++ c ++ d)) :
    (left.bind fun a => own.bind fun b => right.map fun d => f (a ++ b ++ d)).Settles Eq
      (left'.bind fun a => new.bind fun c => right'.map fun d => g (a ++ c ++ d)) := by
  have hleft := hl.strengthen (P := fun a => ∃ log, left = .done a log) fun a log hd => ⟨log, hd⟩
  have hright := hr.strengthen (P := fun d => ∃ log, right = .done d log) fun d log hd => ⟨log, hd⟩
  refine hleft.bind fun a a' ha => ho.bind fun b c hb => hright.map fun d d' hd => ?_
  obtain ⟨rfl, hdonea⟩ := ha
  obtain ⟨rfl, hdoned⟩ := hd
  exact h a b c d hdonea hdoned hb

theorem middle_after (left own right : Evaluation Results) (f : Results → Completed) (log : Log) :
    (left.bind fun a => (own.after log).bind fun b => right.map fun d => f (a ++ b ++ d)).Agrees Eq
      ((left.bind fun a => own.bind fun b => right.map fun d => f (a ++ b ++ d)).after log) := by
  simp only [← after_bind]
  exact (after_bind_agrees left log).symm_eq

theorem forecast_eq {machine : Machine} {left middle right : List Strand} {depth : Nat}
    (ht : Trims (left ++ middle ++ right) machine.task.strands) :
    machine.forecast env depth =
      ((promises env depth left).bind fun a => (promises env depth middle).bind fun b =>
        (promises env depth right).map fun d => machine.state.tree.read (a ++ b ++ d)).after
          machine.state.log := by
  rw [forecast, promises_trims ht, promises_middle]
  simp only [map_bind, map_map]

theorem forecast_split {machine : Machine} {left right : List Strand} {piece : Work}
    (hs : machine.task.strands = left ++ .ok piece :: right) (depth : Nat) :
    machine.forecast env depth =
      ((promises env depth left).bind fun a => (piece.promise env depth).bind fun b =>
        (promises env depth right).map fun d => machine.state.tree.read (a ++ b ++ d)).after
          machine.state.log := by
  have ht : Trims (left ++ [.ok piece] ++ right) machine.task.strands := by
    rw [hs, List.append_assoc]
    exact .refl _
  rw [forecast_eq ht, promises_single]

theorem Coherent.split {machine : Machine} (hc : machine.Coherent env) {left right : List Strand}
    {piece : Work} (hs : machine.task.strands = left ++ .ok piece :: right) :
    GraphQL.Coherent env machine.state.tree (Strand.works left ++ piece :: Strand.works right) := by
  have := hc
  rwa [Machine.Coherent, hs, works_append, works_ok] at this

/-- The results of other work lie apart, so those of a piece may be put in place of each other. -/
theorem Coherent.read_eq {machine : Machine} (hc : machine.Coherent env) {left right : List Strand}
    {piece : Work} (hs : machine.task.strands = left ++ .ok piece :: right) {next : ResultTree}
    {depth : Nat} {before own new after : Results} {first last : Log}
    (hl : promises env depth left = .done before first)
    (hr : promises env depth right = .done after last) (ho : own.paths = piece.owned)
    (hj : Joins machine.state.tree next own new) :
    next.read (before ++ new ++ after) = machine.state.tree.read (before ++ own ++ after) := by
  refine hj before after fun path hp top ht => ?_
  rw [promises_paths hl, promises_paths hr, ← List.flatMap_append] at hp
  obtain ⟨other, hother, hpath⟩ := List.mem_flatMap.mp hp
  exact (hc.split hs).others hother hpath top (ho ▸ ht)

section Promised

variable {piece : Work} {deeds : List Deed} {outcome : Task} {R : Results → Results → Prop}

/-- Where a piece of work comes to a result, what its step leaves comes to one that fits. -/
theorem settles_of_agrees
    (h : ∀ depth, (piece.promise env (depth + piece.cost)).Agrees R
      ((promises env depth outcome.strands).after (Deed.logs deeds))) (depth : Nat) :
    (piece.promise env depth).Settles R
      ((promises env depth outcome.strands).after (Deed.logs deeds)) := by
  rcases piece.cost_cases env with hcost | ⟨hcost, hzero⟩
  · simpa [hcost] using (h depth).settles
  · -- gathering spends one of the objects, and without any left it promises nothing
    cases depth with
    | zero => exact hzero ▸ unfinished_settles _
    | succ depth =>
      have hsettles : (promises env depth outcome.strands).Settles Eq
          (promises env (depth + 1) outcome.strands) := promises_settles (Nat.le_succ depth) _
      refine Settles.trans (hcost ▸ h depth).settles (hsettles.after (.refl _)) ?_
      rintro a b _ hr rfl
      exact hr

/-- Where what a step leaves comes to a result, the piece of work comes to one that fits. -/
theorem settles_back_of_agrees
    (h : ∀ depth, (piece.promise env (depth + piece.cost)).Agrees R
      ((promises env depth outcome.strands).after (Deed.logs deeds))) (depth : Nat) :
    ((promises env depth outcome.strands).after (Deed.logs deeds)).Settles
      (fun new own => R own new) (piece.promise env (depth + 1)) := by
  have hle : depth + piece.cost ≤ depth + 1 := by
    rcases piece.cost_cases env with hcost | ⟨hcost, -⟩ <;> omega
  refine (h depth).symm.settles.trans (Work.promise_settles hle piece) ?_
  rintro a b _ hr rfl
  exact hr

end Promised

/-- A step keeps what the machine comes to, as long as no field is left out. -/
theorem forecast_step {machine next : Machine} (hc : machine.Coherent env) {left right : List Strand}
    {piece : Work} {deeds : List Deed} {outcome : Task}
    (hs : machine.task.strands = left ++ .ok piece :: right)
    (ht : Trims (left ++ outcome.strands ++ right) next.task.strands)
    (hstate : next.state = machine.state.performAll deeds)
    (h : Work.Step env machine.state piece deeds outcome) (depth : Nat) :
    (machine.forecast env depth).Settles Eq (next.forecast env depth) ∧
      (next.forecast env depth).Settles Eq (machine.forecast env (depth + 1)) := by
  let R := fun own new : Results => own.paths = piece.owned ∧
    Joins machine.state.tree next.state.tree own new
  have hagrees : ∀ depth, (piece.promise env (depth + piece.cost)).Agrees R
      ((promises env depth outcome.strands).after (Deed.logs deeds)) := by
    intro depth
    have hstep := h.agrees (hc.split hs).single depth
    rw [← hstate] at hstep
    exact hstep.refine fun own new log hd hj => ⟨Work.promise_paths hd, hj⟩
  have hjoin : ∀ depth a b c d, (∃ log, promises env depth left = .done a log) →
      (∃ log, promises env depth right = .done d log) → R b c →
      machine.state.tree.read (a ++ b ++ d) = next.state.tree.read (a ++ c ++ d) := by
    rintro depth a b c d ⟨_, ha⟩ ⟨_, hd⟩ ⟨hb, hj⟩
    exact (hc.read_eq hs ha hd hb hj).symm
  have hnext : ∀ depth, (next.forecast env depth).Agrees Eq
      (((promises env depth left).bind fun a =>
        ((promises env depth outcome.strands).after (Deed.logs deeds)).bind fun b =>
          (promises env depth right).map fun d => next.state.tree.read (a ++ b ++ d)).after
            machine.state.log) := by
    intro depth
    rw [forecast_eq ht, hstate, State.log_performAll, ← after_after, ← hstate]
    exact (middle_after _ _ _ _ _).symm_eq.after (.refl _)
  constructor
  · rw [forecast_split hs]
    refine Settles.trans_eq (Settles.after ?_ (.refl _)) (hnext depth).symm_eq.settles
    exact settles_middle _ _ (.refl _) (settles_of_agrees hagrees depth) (.refl _) (hjoin depth)
  · rw [forecast_split hs]
    refine (hnext depth).settles.trans_eq (Settles.after ?_ (.refl _))
    exact settles_middle _ _ (promises_settles (Nat.le_succ depth) left)
      (settles_back_of_agrees hagrees depth) (promises_settles (Nat.le_succ depth) right)
      fun a b c d ha hd hr => (hjoin depth a c b d ha hd hr).symm

end Machine

end GraphQL
