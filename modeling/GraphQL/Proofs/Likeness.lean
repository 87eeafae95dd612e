import GraphQL.Proofs.Lockstep
import GraphQL.Proofs.Timing

/-!
# Alike values

Two executors whose resolvers give values that are alike, as the declared types of their positions
go, and that differ in nothing else. What counts as alike is a parameter: it is asked that alike
values mean the same where they settle, and that completing them comes down to the same shape, with
elements that are alike again. Then the executors do the same work on the same tree, whoever chooses
the moves; only their histories show the values themselves.
-/

namespace GraphQL

open Reference

/-- When settled values are alike at a position of a declared type. -/
abbrev Likeness := TypeRef → FieldValue → FieldValue → Prop

/-- Values that settle after the same stages, and are related once they have. -/
inductive Resolution.Paired (S : FieldValue → FieldValue → Prop) :
    Resolution → Resolution → Prop where
  | ready {value other : FieldValue} (h : S value other) :
      Resolution.Paired S (.ready value) (.ready other)
  | deferred (stages : List Stage) {value other : FieldValue} (h : S value other) :
      Resolution.Paired S (.deferred stages value) (.deferred stages other)

theorem Resolution.Paired.refl {S : FieldValue → FieldValue → Prop} (hs : ∀ value, S value value)
    (resolution : Resolution) : Resolution.Paired S resolution resolution := by
  cases resolution with
  | ready value => exact .ready (hs value)
  | deferred stages value => exact .deferred stages (hs value)

/-- A value before it was routed. -/
def Content.given : Content → FieldValue
  | .value raw => .value raw
  | .items resolutions => .list resolutions

theorem Content.given_inj {content other : Content} (h : content.given = other.given) :
    content = other := by
  cases content with
  | value raw =>
    cases other with
    | value other => exact congrArg Content.value (FieldValue.value.inj h)
    | items others => cases h
  | items items =>
    cases other with
    | value other => cases h
    | items others => exact congrArg Content.items (FieldValue.list.inj h)

/-- Routes that end alike or go on with related contents. -/
inductive Routed.Related (S : Content → Content → Prop) : Routed → Routed → Prop where
  | skipped : Routed.Related S .skipped .skipped
  | null (errors : List ResponseError) : Routed.Related S (.null errors) (.null errors)
  | content {content other : Content} (h : S content other) :
      Routed.Related S (.content content) (.content other)

theorem Routed.Related.refl {S : Content → Content → Prop} (hs : ∀ content, S content content)
    (routed : Routed) : Routed.Related S routed routed := by
  cases routed with
  | skipped => exact .skipped
  | null errors => exact .null errors
  | content content => exact .content (hs content)

namespace State

/-- States that differ in their histories only. -/
structure Agrees (state other : State) : Prop where
  tree : state.tree = other.tree
  clock : state.clock = other.clock
  tickets : state.tickets = other.tickets

namespace Agrees

variable {state other third : State}

theorem symm (h : state.Agrees other) : other.Agrees state :=
  ⟨h.tree.symm, h.clock.symm, h.tickets.symm⟩

theorem trans (h : state.Agrees other) (k : other.Agrees third) : state.Agrees third :=
  ⟨h.tree.trans k.tree, h.clock.trans k.clock, h.tickets.trans k.tickets⟩

theorem note (h : state.Agrees other) (event event' : Event) :
    (state.note event).Agrees (other.note event') := ⟨h.tree, h.clock, h.tickets⟩

theorem perform (h : state.Agrees other) (deed : Deed) :
    (state.perform deed).Agrees (other.perform deed) := by
  cases deed with
  | report errors => exact ⟨congrArg (ResultTree.report · errors) h.tree, h.clock, h.tickets⟩
  | declare path type =>
    exact ⟨congrArg (ResultTree.record · path type) h.tree, h.clock, h.tickets⟩
  | write path entry propagating =>
    exact ⟨congrArg (ResultTree.write · path entry propagating) h.tree, h.clock, h.tickets⟩
  | note event => exact h.note event event
  | draw => exact ⟨h.tree, h.clock, congrArg (· + 1) h.tickets⟩

theorem performAll (h : state.Agrees other) (deeds : List Deed) :
    (state.performAll deeds).Agrees (other.performAll deeds) := by
  induction deeds generalizing state other with
  | nil => exact h
  | cons deed rest ih => exact ih (h.perform deed)

end Agrees

/-- What calling the resolver of a field does, but for the history. -/
theorem agrees_fieldDeeds (state : State) (env : Environment) (frame : ObjectFrame)
    (group : FieldGroup) (found : FieldLookup) (type : TypeRef) :
    (state.performAll (Work.fieldDeeds env frame group found type)).Agrees
      (state.report (collected (arguments env frame group found).collector
        (answer env frame group found type).1.reports)) := by
  have hnone : ∀ collector : Option ErrorCollector,
      state.report (collected collector []) = state := by simp
  unfold Work.fieldDeeds answer
  cases found with
  | introspection field =>
    rw [show (Reply.ready _).reports = [] from rfl, hnone]
    cases env.config.tracing <;> exact ⟨rfl, rfl, rfl⟩
  | ordinary definition =>
    cases env.registry.resolver? frame.type.name group.node.name with
    | none =>
      rw [show (Reply.ready _).reports = [] from rfl, hnone]
      cases env.config.tracing <;> exact ⟨rfl, rfl, rfl⟩
    | some entry => cases env.config.tracing <;> exact ⟨rfl, rfl, rfl⟩

end State

section Relations

variable (like : Likeness)

/-- Replies with the same reports and the same stages, whose values are alike. -/
structure Reply.Like (type : TypeRef) (reply other : Reply) : Prop where
  reports : reply.reports = other.reports
  resolution : Resolution.Paired (like type) reply.resolution other.resolution

/-- What is done with a value of a site agrees for these values. -/
def Purpose.Like (site : Site) : Purpose → FieldValue → FieldValue → Prop
  | complete => like site.type
  | enter _ => Eq

def Content.Like (type : TypeRef) (content other : Content) : Prop :=
  like type content.given other.given

/-- The same shape, with elements that are alike and raw objects with the same authorization. -/
inductive Shaped.Like (env : Environment) : Shaped → Shaped → Prop where
  | null (errors : List ResponseError) : Shaped.Like env (.null errors) (.null errors)
  | leaf (output : Json) : Shaped.Like env (.leaf output) (.leaf output)
  | list (itemType : TypeRef) {items others : List Resolution}
      (each : List.Forall₂ (Resolution.Paired (like itemType)) items others) :
      Shaped.Like env (.list itemType items) (.list itemType others)
  | object (type : ObjectDef) {raw other : Json}
      (exposed : env.registry.authorize type raw env.context =
        env.registry.authorize type other env.context) :
      Shaped.Like env (.object type raw) (.object type other)
  | fault (raised : Fault) : Shaped.Like env (.fault raised) (.fault raised)

/-- Sites of fields with values that are alike. -/
def LikeField (prepared other : Site × Resolution) : Prop :=
  prepared.1 = other.1 ∧ Resolution.Paired (like prepared.1.type) prepared.2 other.2

/-- The same work on values that are alike. -/
inductive Work.Like : Work → Work → Prop where
  | select (frame : ObjectFrame) (selections : List Selection) (serial : Bool) :
      Work.Like (.select frame selections serial) (.select frame selections serial)
  | prepare (frame : ObjectFrame) (phase : Phase) (groups : List FieldGroup)
      {prepared others : List (Site × Resolution)}
      (each : List.Forall₂ (LikeField like) prepared others) :
      Work.Like (.prepare frame phase groups prepared) (.prepare frame phase groups others)
  | field (frame : ObjectFrame) (phase : Phase) (group : FieldGroup) :
      Work.Like (.field frame phase group) (.field frame phase group)
  | settle (site : Site) (purpose : Purpose) {resolution other : Resolution}
      (h : Resolution.Paired (purpose.Like like site) resolution other) :
      Work.Like (.settle site purpose resolution) (.settle site purpose other)
  | await (site : Site) (purpose : Purpose) (progress : Progress) (stages : List Stage)
      {value other : FieldValue} (h : purpose.Like like site value other) :
      Work.Like (.await site purpose progress stages value)
        (.await site purpose progress stages other)
  | resume (site : Site) (purpose : Purpose) {value other : FieldValue}
      (h : purpose.Like like site value other) :
      Work.Like (.resume site purpose value) (.resume site purpose other)
  | complete (site : Site) {content other : Content}
      (h : Content.Like like site.type content other) :
      Work.Like (.complete site content) (.complete site other)

/-- Another registry answers the fields that occur as the registry of the environment does, but for
values that are alike. Its authorizers are the same, and alike values are handled alike. -/
structure Registry.Likens (env : Environment) (root : ObjectFrame) (top : List Selection)
    (registry : Registry) : Prop where
  authorizers : registry.authorizers = env.registry.authorizers
  answers : ∀ frame group found type, Occurs env root top (.field frame group) →
    lookup env frame group = .ok (found, type) →
      (answer env frame group found type).1.Like like type
        (answer { env with registry } frame group found type).1
  /-- Alike values mean the same where they settle. -/
  route : ∀ (site : Site) {value other : FieldValue}, like site.type value other →
    (site.route value).Related (Content.Like like site.type) (site.route other)
  /-- Completing alike values comes down to the same shape. -/
  shape : ∀ (site : Site) {content other : Content}, Content.Like like site.type content other →
    Shaped.Like like env (Shaped.of env site content site.type)
      (Shaped.of { env with registry } site other site.type)

/-- What a step comes to with one registry and the other. -/
def LikeStep (reached other : Task × State) : Prop :=
  reached.1.Alike (Work.Like like) other.1 ∧ reached.2.Agrees other.2

end Relations

theorem Shaped.Like.refl {like : Likeness} (hl : ∀ type value, like type value value)
    (env : Environment) (shaped : Shaped) : Shaped.Like like env shaped shaped := by
  cases shaped with
  | null errors => exact .null errors
  | leaf output => exact .leaf output
  | list itemType items =>
    exact .list itemType (List.forall₂_same.mpr fun item _ => .refl (hl itemType) item)
  | object type value => exact .object type rfl
  | fault raised => exact .fault raised

/-- A value of a named type takes its shape from the scalars of the registry only. -/
theorem Shaped.ofNamed_withRegistry {env : Environment} {registry : Registry}
    (hscalars : registry.scalars = env.registry.scalars) (site : Site) (content : Content)
    (definition : TypeDef) :
    ofNamed { env with registry } site content definition =
      ofNamed env site content definition := by
  cases definition <;> cases content <;> simp only [ofNamed, ofLeaf, ofAbstract, hscalars]

section Steps

variable {like : Likeness} {env : Environment} {root : ObjectFrame} {top : List Selection}
variable {registry : Registry}

theorem LikeField.settling {prepared other : Site × Resolution}
    (h : LikeField like prepared other) :
    (Preparation.settling prepared).Alike (Work.Like like) (Preparation.settling other) := by
  obtain ⟨site, resolution⟩ := prepared
  obtain ⟨site', resolution'⟩ := other
  obtain ⟨hsite, hpaired⟩ := h
  dsimp only at hsite hpaired
  subst hsite
  exact .work (.settle site .complete hpaired)

namespace Registry.Likens

variable (hr : registry.Likens like env root top) {state other : State}

include hr

theorem authorize (type : ObjectDef) (value : Json) :
    registry.authorize type value env.context = env.registry.authorize type value env.context := by
  rw [Registry.authorize, Registry.authorize, Registry.authorizer?, Registry.authorizer?,
    hr.authorizers]

theorem prepareField {frame : ObjectFrame} {group : FieldGroup}
    (ho : Occurs env root top (.field frame group)) {going going' : Phase → Work}
    (hgoing : ∀ phase, Work.Like like (going phase) (going' phase))
    {finished finished' : Option (Site × Resolution) → Task}
    (hfinished : ∀ next next', Option.Rel (LikeField like) next next' →
      (finished next).Alike (Work.Like like) (finished' next'))
    (hs : state.Agrees other) (phase : Phase) :
    LikeStep like (Preparation.prepareField env frame group going finished state phase)
      (Preparation.prepareField { env with registry } frame group going' finished' other
        phase) := by
  have hlookup : lookup { env with registry } frame group = lookup env frame group := rfl
  rw [Work.prepareField_eq, Work.prepareField_eq, hlookup]
  cases phase with
  | declare =>
    cases lookup env frame group with
    | error raised => exact ⟨.fault raised, hs⟩
    | ok entry => exact ⟨.work (hgoing .check), hs.performAll _⟩
  | check =>
    dsimp only
    rw [hs.tree]
    split
    · exact ⟨hfinished none none .none, hs⟩
    · exact ⟨.work (hgoing .call), hs⟩
  | call =>
    cases hl : lookup env frame group with
    | error raised => exact ⟨.fault raised, hs⟩
    | ok entry =>
      obtain ⟨found, type⟩ := entry
      have hanswer := hr.answers frame group found type ho hl
      refine ⟨hfinished _ _ (.some ⟨rfl, hanswer.resolution⟩), ?_⟩
      have hreported := hs.perform (.report (collected (arguments env frame group found).collector
        (answer env frame group found type).1.reports))
      refine ((state.agrees_fieldDeeds env frame group found type).trans hreported).trans ?_
      rw [hanswer.reports]
      exact (other.agrees_fieldDeeds { env with registry } frame group found type).symm

omit hr in
theorem select (frame : ObjectFrame) (selections : List Selection) (serial : Bool)
    (hs : state.Agrees other) :
    LikeStep like (Preparation.select env frame selections serial state)
      (Preparation.select { env with registry } frame selections serial other) := by
  rw [Preparation.select, Preparation.select]
  dsimp only
  cases Gathering.collect env.schema env.document env.context frame.type selections with
  | error raised => exact ⟨.fault raised, hs⟩
  | ok groups =>
    refine ⟨?_, hs.perform (.write frame.path (.object (groups.map FieldGroup.key)) false)⟩
    cases serial with
    | false => exact .work (.prepare frame .declare groups .nil)
    | true =>
      refine .inOrder (List.forall₂_same.mpr fun task ht => ?_)
      obtain ⟨group, -, rfl⟩ := List.mem_map.mp ht
      exact .work (.field frame .declare group)

theorem prepare {frame : ObjectFrame} (phase : Phase) {groups : List FieldGroup}
    (ho : ∀ group ∈ groups, Occurs env root top (.field frame group))
    {prepared others : List (Site × Resolution)}
    (each : List.Forall₂ (LikeField like) prepared others) (hs : state.Agrees other) :
    LikeStep like (Preparation.prepare env frame phase groups prepared state)
      (Preparation.prepare { env with registry } frame phase groups others other) := by
  cases groups with
  | nil => exact ⟨.dispatch (List.rel_map (fun _ _ hfield => hfield.settling) each) _ _, hs⟩
  | cons group rest =>
    refine hr.prepareField (ho group List.mem_cons_self)
      (fun phase => .prepare frame phase (group :: rest) each) (fun next next' hnext => ?_) hs phase
    refine .work (.prepare frame .declare rest (List.rel_append each ?_))
    cases hnext with
    | none => exact .nil
    | some hfield => exact .cons hfield .nil

theorem prepareAlone {frame : ObjectFrame} (phase : Phase) {group : FieldGroup}
    (ho : Occurs env root top (.field frame group)) (hs : state.Agrees other) :
    LikeStep like (Preparation.prepareAlone env frame phase group state)
      (Preparation.prepareAlone { env with registry } frame phase group other) := by
  refine hr.prepareField ho (fun phase => .field frame phase group) (fun next next' hnext => ?_) hs
    phase
  cases hnext with
  | none => exact .done
  | some hfield => exact hfield.settling

theorem resume (site : Site) {purpose : Purpose} {value given : FieldValue}
    (h : purpose.Like like site value given) (hs : state.Agrees other) :
    LikeStep like (Completion.resume site purpose value state)
      (Completion.resume site purpose given other) := by
  cases purpose with
  | complete =>
    have hroute := hr.route site h
    rw [Completion.resume, Completion.resume]
    generalize site.route value = routed, site.route given = routed' at hroute
    cases hroute with
    | skipped => exact ⟨.done, hs⟩
    | null errors =>
      exact ⟨.done, hs.performAll [.report errors, .write site.path .null site.type.isNonNull]⟩
    | content hcontent => exact ⟨.work (.complete site hcontent), hs⟩
  | enter type =>
    obtain rfl : value = given := h
    rw [Completion.resume, Completion.resume]
    cases site.route value with
    | skipped => exact ⟨.done, hs⟩
    | null errors =>
      exact ⟨.done, hs.performAll [.report errors, .write site.path .null site.type.isNonNull]⟩
    | content content =>
      cases content with
      | items items =>
        exact ⟨.done, hs.performAll [.report [site.failure (.listForAuthorized type.name)],
          .write site.path .null site.type.isNonNull]⟩
      | value exposed => exact ⟨.work (.select _ _ false), hs⟩

omit hr in
/-- Resolutions that are alike are settled alike at the same sites. -/
theorem settle {itemType : TypeRef} {sites : List Site} {items others : List Resolution}
    (ht : ∀ site ∈ sites, site.type = itemType)
    (each : List.Forall₂ (Resolution.Paired (like itemType)) items others) :
    List.Forall₂ (Work.Like like)
      ((sites.zip items).map fun element => .settle element.1 .complete element.2)
      ((sites.zip others).map fun element => .settle element.1 .complete element.2) := by
  induction each generalizing sites with
  | nil => simp
  | cons hitem _ ih =>
    cases sites with
    | nil => exact .nil
    | cons site rest =>
      refine .cons (.settle site .complete ?_)
        (ih fun other ho => ht other (List.mem_cons_of_mem _ ho))
      rw [Purpose.Like, ht site List.mem_cons_self]
      exact hitem

omit hr in
theorem settling (site : Site) (itemType : TypeRef) {items others : List Resolution}
    (each : List.Forall₂ (Resolution.Paired (like itemType)) items others) :
    List.Forall₂ (Work.Like like) (Shaped.settling site itemType items)
      (Shaped.settling site itemType others) := by
  rw [Shaped.settling, Shaped.settling, each.length_eq]
  refine settle (fun element hm => ?_) each
  obtain ⟨place, -, rfl⟩ := List.mem_map.mp hm
  rfl

theorem complete (site : Site) {content given : Content}
    (h : Content.Like like site.type content given) (hs : state.Agrees other) :
    LikeStep like (Completion.complete env site content state site.type)
      (Completion.complete { env with registry } site given other site.type) := by
  have hshaped := hr.shape site h
  rw [Shaped.complete_eq, Shaped.complete_eq]
  generalize Shaped.of env site content site.type = shaped,
    Shaped.of _ site given site.type = shaped' at hshaped
  cases hshaped with
  | null errors => exact ⟨.done, hs.performAll _⟩
  | leaf output => exact ⟨.done, hs.performAll _⟩
  | list itemType each =>
    have hworks := settling site itemType each
    have hl := List.Forall₂.length_eq each
    refine ⟨.dispatch (List.rel_map (fun _ _ hwork => .work hwork) hworks) _ _, ?_⟩
    rw [Shaped.deeds, Shaped.deeds, hl]
    exact hs.performAll _
  | @object type raw raw' exposed =>
    have hauthorized : env.registry.authorize type raw env.context =
        registry.authorize type raw' env.context := by rw [hr.authorize, exposed]
    refine ⟨.work (.settle site (.enter type) ?_), ?_⟩
    · rw [hauthorized]
      exact .refl (fun _ => rfl) _
    · rw [Shaped.deeds, Shaped.deeds, Shaped.asked, Shaped.asked, Registry.authorizer?,
        Registry.authorizer?, hr.authorizers]
      cases Members.get? type.name env.registry.authorizers with
      | none => exact hs
      | some authorizer => exact hs.note _ _
  | fault raised => exact ⟨.fault raised, hs⟩

/-- A step with either registry does the same but for the history, and leaves the same work on
values that are alike. -/
theorem step {piece given : Work} (h : Work.Like like piece given)
    (ho : piece.Occurs env root top) (hs : state.Agrees other) :
    LikeStep like (piece.step env state) (given.step { env with registry } other) := by
  cases h with
  | select frame selections serial => exact select frame selections serial hs
  | prepare frame phase groups each => exact hr.prepare phase ho.1 each hs
  | field frame phase group => exact hr.prepareAlone phase ho hs
  | settle site purpose h =>
    cases h with
    | ready h => exact ⟨.work (.resume site purpose h), hs.note _ _⟩
    | deferred stages h =>
      refine ⟨?_, hs.perform .draw⟩
      rw [Work.step, Work.step, hs.tickets]
      exact .work (.await site purpose _ stages h)
  | await site purpose progress stages h =>
    cases progress with
    | queued ticket => exact ⟨.work (.await site purpose _ stages h), hs.note _ _⟩
    | asleep wake => exact ⟨.work (.await site purpose _ stages h), hs.note _ _⟩
    | started =>
      cases stages with
      | nil => exact ⟨.work (.resume site purpose h), hs.note _ _⟩
      | cons stage rest =>
        cases stage with
        | pause milliseconds =>
          refine ⟨?_, hs.note _ _⟩
          rw [Work.step, Work.step, Work.passStage, Work.passStage, hs.clock]
          exact .work (.await site purpose _ rest h)
        | report errors =>
          refine ⟨.work (.await site purpose _ rest h), ?_⟩
          rw [Work.step, Work.step, Work.passStage, Work.passStage, State.reportTo_eq,
            State.reportTo_eq]
          exact hs.perform (.report _)
  | resume site purpose h => exact hr.resume site h hs
  | complete site h => exact hr.complete site h hs

/-- Machines with either registry are in lockstep. -/
theorem lockstep : Lockstep env { env with registry } State.Agrees fun piece given =>
    Work.Like like piece given ∧ piece.Occurs env root top where
  config := rfl
  clock hs := hs.clock
  pass hs clock := ⟨hs.tree, rfl, hs.tickets⟩
  progress h := by cases h.1 <;> rfl
  task h state _ hs := (hr.step h.1 h.2 hs).1.and_works (Work.step_occurs state h.2)
  state h _ _ hs := (hr.step h.1 h.2 hs).2

end Registry.Likens

end Steps

namespace Executor

/-- A request has the same responses, or ends in the same faults, with either executor: by its own
choices and whoever chooses the moves. -/
def SameResponses (a b : Executor) (schema : Schema) (request : Request) : Prop :=
  (∀ moves, (a.execute schema request moves).map (Except.map Execution.response) =
      (b.execute schema request moves).map (Except.map Execution.response)) ∧
    ∀ response, (∃ result, a.Reaches schema request result ∧
        result.map Execution.response = response) ↔
      ∃ result, b.Reaches schema request result ∧ result.map Execution.response = response

/-- Executors that differ in the values of their resolvers only, and by what is alike as far as a
request calls them. What is alike may depend on the operation. -/
structure Likens (a b : Executor) (schema : Schema) (request : Request) : Prop where
  config : b.config = a.config
  registry : ∀ operation rootType,
    request.document.operation? request.operationName = .ok operation →
    schema.rootType (operation.withDefaults request.context) operation.kind = .ok rootType →
      ∃ like, b.registry.Likens like (a.environment schema request operation)
        { path := [], type := rootType, value := request.root } operation.selections

variable {a b : Executor} {schema : Schema} {request : Request}

theorem Likens.start (h : a.Likens b schema request) :
    StartAlike State.Agrees (a.start schema request) (b.start schema request) := by
  have hregistry := h.registry
  rw [start_eq, start_eq]
  cases ho : request.document.operation? request.operationName with
  | error raised => exact .error raised
  | ok operation =>
    dsimp only
    cases ht : schema.rootType (operation.withDefaults request.context) operation.kind with
    | error raised => exact .error raised
    | ok rootType =>
      obtain ⟨like, hlike⟩ := hregistry operation rootType ho ht
      have henv : b.environment schema request operation =
          { a.environment schema request operation with registry := b.registry } := by
        rw [environment, environment, h.config]
      refine .ok ⟨_, henv ▸ hlike.lockstep, .work ⟨.select _ _ _, .root⟩, rfl, rfl, rfl⟩

/-- Executors that differ in alike values only have the same responses, by their own choices and
whoever chooses the moves. -/
theorem Likens.sameResponses (h : a.Likens b schema request) :
    a.SameResponses b schema request := by
  have hread : ∀ {state other : State}, state.Agrees other →
      state.execution.response = other.execution.response := fun hs =>
    congrArg ResultTree.response hs.tree
  refine ⟨execute_read_eq h.start hread, fun response => ⟨?_, ?_⟩⟩
  · rintro ⟨result, hreaches, rfl⟩
    obtain ⟨other, hother, hsame⟩ := reaches_read h.start hread hreaches
    exact ⟨other, hother, hsame.symm⟩
  · rintro ⟨result, hreaches, rfl⟩
    obtain ⟨other, hother, hsame⟩ :=
      reaches_read h.start.swap (fun hs => (hread hs).symm) hreaches
    exact ⟨other, hother, hsame.symm⟩

end Executor

end GraphQL
