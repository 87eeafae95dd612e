import GraphQL.Proofs.Reference
import GraphQL.Proofs.Strands

/-!
# Steps

All that a step of work can do. A step is a list of deeds on the state and an outcome; `Step` has a
constructor for each kind of step and `Prunes` one for each way of leaving out a field. Everything
that is preserved along a run is shown by cases on these two, never by unfolding the machine.
-/

namespace GraphQL

/-- Something that a step does to the state. -/
inductive Deed where
  | report (errors : List ResponseError)
  | declare (path : Path) (type : TypeRef)
  | write (path : Path) (entry : Entry) (propagating : Bool)
  | note (event : Event)
  /-- A ticket is drawn. -/
  | draw

namespace State

def perform (state : State) : Deed → State
  | .report errors => state.report errors
  | .declare path type => state.declare path type
  | .write path entry propagating => state.write path entry propagating
  | .note event => state.note event
  | .draw => { state with tickets := state.tickets + 1 }

/-- The state after deeds, from the first to the last. -/
def performAll (state : State) (deeds : List Deed) : State := deeds.foldl perform state

@[simp] theorem performAll_nil (state : State) : state.performAll [] = state := rfl
@[simp] theorem performAll_cons (state : State) (deed : Deed) (rest : List Deed) :
    state.performAll (deed :: rest) = (state.perform deed).performAll rest := rfl

theorem performAll_append (state : State) (first second : List Deed) :
    state.performAll (first ++ second) = (state.performAll first).performAll second :=
  List.foldl_append ..

@[simp] theorem report_nil (state : State) : state.report [] = state := by
  simp [report, ResultTree.report]

/-- Reporting to a collector is reporting what reaches it. -/
theorem reportTo_eq (state : State) (collector : Option ErrorCollector)
    (errors : List ResponseError) :
    state.reportTo collector errors = state.report (Reference.collected collector errors) := by
  cases collector with
  | none => simp [reportTo, Reference.collected]
  | some collector => rfl

theorem declareItems_eq (state : State) (sites : List Site) :
    state.declareItems sites =
      state.performAll (sites.map fun site => .declare site.path site.type) := by
  simp [declareItems, performAll, List.foldl_map, perform]

end State

/-- What the completion of a value at a site comes down to. -/
inductive Shaped where
  /-- The site ends with errors and a null. -/
  | null (errors : List ResponseError)
  | leaf (output : Json)
  | list (itemType : TypeRef) (items : List Resolution)
  /-- The value is to be authorized as an object of this type. -/
  | object (type : ObjectDef) (value : Json)
  | fault (raised : Fault)

namespace Shaped

variable (env : Environment)

def ofLeaf (site : Site) (type : Leaf.LeafDef) : Content → Shaped
  | .items _ => null [site.failure (.listForLeaf type.name)]
  | .value value =>
    match Leaf.coerce env.registry.scalars type value with
    | .error message => null [site.failure (.leafRefused message)]
    | .ok .null => null (if site.type.isNonNull then [site.failure .nullNotAllowed] else [])
    | .ok output => leaf output

def ofObject (site : Site) (type : ObjectDef) : Content → Shaped
  | .items _ => null [site.failure .listForObject]
  | .value value => object type value

def ofAbstract (site : Site) (type : TypeDef) (content : Content) : Shaped :=
  let narrowed := match content with
    | .value value => env.schema.concreteType? env.context type value
    | .items _ => none
  match narrowed with
  | some concrete => ofObject site concrete content
  | none => null [site.failure (.unresolvedType type.name)]

def ofNamed (site : Site) (content : Content) (type : TypeDef) : Shaped :=
  match type with
  | .scalar definition => ofLeaf env site (.scalar definition) content
  | .enum definition => ofLeaf env site (.enum definition) content
  | .union _ => ofAbstract env site type content
  | .interface _ => ofAbstract env site type content
  | .object definition => ofObject site definition content
  | .inputObject definition => fault (.inputTypeAsOutput definition.name)

/-- The shape of a value by what is left of the declared type of its site. -/
def of (site : Site) (content : Content) : TypeRef → Shaped
  | .nonNull inner => of site content inner
  | .list item =>
    match Completion.items? content with
    | none => null [site.failure .listExpected]
    | some items => list item items
  | .resolved definition => ofNamed env site content definition
  | .late name =>
    match env.schema.visibleType? env.context name with
    | some definition => ofNamed env site content definition
    | none => fault (.unknownType name)

/-- The deeds of an authorization: it is noted if there is an authorizer. -/
def asked (site : Site) (type : ObjectDef) (value : Json) : List Deed :=
  match env.registry.authorizer? type.name with
  | some _ => [.note (.authorized site.path type.name value)]
  | none => []

/-- The pieces of work that complete the elements of a list. -/
def settling (site : Site) (itemType : TypeRef) (items : List Resolution) : List Work :=
  ((Reference.elements site itemType items.length).zip items).map fun element =>
    .settle element.1 .complete element.2

/-- What completing a value of a shape does. -/
def deeds (site : Site) : Shaped → List Deed
  | null errors => [.report errors, .write site.path .null site.type.isNonNull]
  | leaf output => [.write site.path (.leaf output) false]
  | list itemType items =>
    .write site.path (.list items.length) false ::
      (Reference.elements site itemType items.length).map fun element =>
        .declare element.path element.type
  | object type value => asked env site type value
  | fault _ => []

/-- What completing a value of a shape leaves to do. -/
def outcome (site : Site) : Shaped → Task
  | null _ => .done
  | leaf _ => .done
  | list itemType items =>
    .dispatch env.config.maxParallelDepth site.path.length
      ((settling site itemType items).map .work)
  | object type value =>
    .work (.settle site (.enter type) (env.registry.authorize type value env.context))
  | fault raised => .fault raised

theorem completeLeaf_eq (site : Site) (type : Leaf.LeafDef) (content : Content) (state : State) :
    (.done, Completion.completeLeaf env site type content state) =
      ((ofLeaf env site type content).outcome env site,
        state.performAll ((ofLeaf env site type content).deeds env site)) := by
  cases content with
  | items items => rfl
  | value value =>
    simp only [Completion.completeLeaf, ofLeaf]
    cases Leaf.coerce env.registry.scalars type value with
    | error message => rfl
    | ok output => cases output <;> rfl

theorem completeObject_eq (site : Site) (type : ObjectDef) (content : Content) (state : State) :
    Completion.completeObject env site type content state =
      ((ofObject site type content).outcome env site,
        state.performAll ((ofObject site type content).deeds env site)) := by
  cases content with
  | items items => rfl
  | value value =>
    simp only [Completion.completeObject, ofObject, outcome, deeds, asked]
    cases env.registry.authorizer? type.name <;> rfl

theorem completeAbstract_eq (site : Site) (type : TypeDef) (content : Content) (state : State) :
    Completion.completeAbstract env site type content state =
      ((ofAbstract env site type content).outcome env site,
        state.performAll ((ofAbstract env site type content).deeds env site)) := by
  cases content with
  | items items => rfl
  | value value =>
    simp only [Completion.completeAbstract, ofAbstract]
    cases env.schema.concreteType? env.context type value with
    | none => rfl
    | some concrete => exact completeObject_eq env site concrete (.value value) state

theorem completeAt_eq (site : Site) (type : TypeDef) (content : Content) (state : State) :
    Completion.completeAt env site type content state =
      ((ofNamed env site content type).outcome env site,
        state.performAll ((ofNamed env site content type).deeds env site)) := by
  cases type with
  | scalar definition => exact completeLeaf_eq env site _ content state
  | enum definition => exact completeLeaf_eq env site _ content state
  | union definition => exact completeAbstract_eq env site _ content state
  | interface definition => exact completeAbstract_eq env site _ content state
  | object definition => exact completeObject_eq env site definition content state
  | inputObject definition => rfl

theorem complete_eq (site : Site) (content : Content) (state : State) (type : TypeRef) :
    Completion.complete env site content state type =
      ((of env site content type).outcome env site,
        state.performAll ((of env site content type).deeds env site)) := by
  induction type with
  | nonNull inner ih => exact ih
  | list item _ =>
    simp only [Completion.complete, Completion.completeList, of]
    cases Completion.items? content with
    | none => rfl
    | some items =>
      simp only [outcome, deeds, settling, State.performAll_cons, State.declareItems_eq,
        Reference.elements, List.map_map]
      rfl
  | resolved definition => exact completeAt_eq env site definition content state
  | late name =>
    simp only [Completion.complete, of]
    cases env.schema.visibleType? env.context name with
    | none => rfl
    | some definition => exact completeAt_eq env site definition content state

theorem ofLeaf_cases (site : Site) (type : Leaf.LeafDef) (content : Content) :
    (∃ errors, ofLeaf env site type content = null errors) ∨
      ∃ output, ofLeaf env site type content = leaf output := by
  cases content with
  | items items => exact .inl ⟨_, rfl⟩
  | value value =>
    simp only [ofLeaf]
    cases Leaf.coerce env.registry.scalars type value with
    | error message => exact .inl ⟨_, rfl⟩
    | ok output =>
      cases output with
      | null => exact .inl ⟨_, rfl⟩
      | _ => exact .inr ⟨_, rfl⟩

/-- A value of a named type ends there, unless it is an object of that type or of one that it is
narrowed to. -/
theorem ofNamed_cases (site : Site) (content : Content) (type : TypeDef) :
    (∃ errors, ofNamed env site content type = null errors) ∨
      (∃ output, ofNamed env site content type = leaf output) ∨
      (∃ raised, ofNamed env site content type = fault raised) ∨
      ∃ concrete value, content = .value value ∧
        (type = .object concrete ∨
          type.isAbstract = true ∧
            env.schema.concreteType? env.context type value = some concrete) ∧
        ofNamed env site content type = object concrete value := by
  have hleaf : ∀ definition, ofNamed env site content type = ofLeaf env site definition content →
      (∃ errors, ofNamed env site content type = null errors) ∨
        ∃ output, ofNamed env site content type = leaf output := by
    intro definition he
    rw [he]
    exact ofLeaf_cases env site definition content
  have habstract : ofNamed env site content type = ofAbstract env site type content →
      (∃ errors, ofNamed env site content type = null errors) ∨
        ∃ concrete value, content = .value value ∧
          env.schema.concreteType? env.context type value = some concrete ∧
          ofNamed env site content type = object concrete value := by
    intro he
    rw [he]
    cases content with
    | items items => exact .inl ⟨_, rfl⟩
    | value value =>
      simp only [ofAbstract]
      cases hc : env.schema.concreteType? env.context type value with
      | none => exact .inl ⟨_, rfl⟩
      | some concrete => exact .inr ⟨concrete, value, rfl, hc, rfl⟩
  cases type with
  | scalar definition => exact (hleaf (.scalar definition) rfl).imp id .inl
  | enum definition => exact (hleaf (.enum definition) rfl).imp id .inl
  | union definition =>
    refine (habstract rfl).imp id fun ⟨concrete, value, hv, hc, he⟩ => .inr (.inr ?_)
    exact ⟨concrete, value, hv, .inr ⟨rfl, hc⟩, he⟩
  | interface definition =>
    refine (habstract rfl).imp id fun ⟨concrete, value, hv, hc, he⟩ => .inr (.inr ?_)
    exact ⟨concrete, value, hv, .inr ⟨rfl, hc⟩, he⟩
  | object definition =>
    cases content with
    | items items => exact .inl ⟨_, rfl⟩
    | value value => exact .inr (.inr (.inr ⟨definition, value, rfl, .inl rfl, rfl⟩))
  | inputObject definition => exact .inr (.inr (.inl ⟨_, rfl⟩))

end Shaped

namespace Work

open Reference

/-- What calling the resolver of a field does. -/
def fieldDeeds (env : Environment) (frame : ObjectFrame) (group : FieldGroup) (found : FieldLookup)
    (type : TypeRef) : List Deed :=
  (if env.config.tracing then
      [.note (.opened (frame.path.key group.key) frame.type.name group.node.name)] else []) ++
    (match found with
      | .introspection _ => []
      | .ordinary _ =>
        match env.registry.resolver? frame.type.name group.node.name with
        | none => []
        | some (resolver, source) =>
          [.note (.called (frame.path.key group.key) frame.type.name group.node.name frame.value
            resolver source),
            .report (collected (arguments env frame group found).collector
              (answer env frame group found type).1.reports)])

/-- The kinds of step by which work goes on. -/
inductive Step (env : Environment) (state : State) : Work → List Deed → Task → Prop where
  | gatherFault {frame selections serial raised}
      (hg : Gathering.collect env.schema env.document env.context frame.type selections =
        .error raised) :
      Step env state (.select frame selections serial) [] (.fault raised)
  | gather {frame selections serial groups}
      (hg : Gathering.collect env.schema env.document env.context frame.type selections =
        .ok groups) :
      Step env state (.select frame selections serial)
        [.write frame.path (.object (groups.map FieldGroup.key)) false]
        (if serial then .inOrder ((groups.map (.field frame .declare)).map .work)
          else .work (.prepare frame .declare groups []))
  | prepared {frame phase prepared} :
      Step env state (.prepare frame phase [] prepared) []
        (.dispatch env.config.maxParallelDepth frame.path.length
          ((prepared.map fun entry => .settle entry.1 .complete entry.2).map .work))
  | prepareFault {frame phase group rest prepared raised} (hphase : phase ≠ .check)
      (hl : lookup env frame group = .error raised) :
      Step env state (.prepare frame phase (group :: rest) prepared) [] (.fault raised)
  | prepareDeclare {frame group rest prepared found type}
      (hl : lookup env frame group = .ok (found, type)) :
      Step env state (.prepare frame .declare (group :: rest) prepared)
        [.declare (frame.path.key group.key) type]
        (.work (.prepare frame .check (group :: rest) prepared))
  | prepareAdmit {frame group rest prepared}
      (hp : env.config.pruneCollapsedSubtrees = true → state.tree.isLive frame.path = true) :
      Step env state (.prepare frame .check (group :: rest) prepared) []
        (.work (.prepare frame .call (group :: rest) prepared))
  | prepare {frame group rest prepared found type}
      (hl : lookup env frame group = .ok (found, type)) :
      Step env state (.prepare frame .call (group :: rest) prepared)
        (fieldDeeds env frame group found type)
        (.work (.prepare frame .declare rest (prepared ++
          [(site env frame group found type, (answer env frame group found type).1.resolution)])))
  | fieldFault {frame phase group raised} (hphase : phase ≠ .check)
      (hl : lookup env frame group = .error raised) :
      Step env state (.field frame phase group) [] (.fault raised)
  | fieldDeclare {frame group found type} (hl : lookup env frame group = .ok (found, type)) :
      Step env state (.field frame .declare group) [.declare (frame.path.key group.key) type]
        (.work (.field frame .check group))
  | fieldAdmit {frame group}
      (hp : env.config.pruneCollapsedSubtrees = true → state.tree.isLive frame.path = true) :
      Step env state (.field frame .check group) [] (.work (.field frame .call group))
  | field {frame group found type} (hl : lookup env frame group = .ok (found, type)) :
      Step env state (.field frame .call group) (fieldDeeds env frame group found type)
        (.work (.settle (site env frame group found type) .complete
          (answer env frame group found type).1.resolution))
  | ready {site purpose value} :
      Step env state (.settle site purpose (.ready value))
        [.note (.settled site.path purpose.isAuthorizing value)]
        (.work (.resume site purpose value))
  | queue {site purpose stages value} (ticket : Nat) :
      Step env state (.settle site purpose (.deferred stages value)) [.draw]
        (.work (.await site purpose (.queued ticket) stages value))
  | start {site purpose ticket stages value} :
      Step env state (.await site purpose (.queued ticket) stages value)
        [.note (.started site.path purpose.isAuthorizing)]
        (.work (.await site purpose .started stages value))
  | wake {site purpose wake stages value} :
      Step env state (.await site purpose (.asleep wake) stages value)
        [.note (.woke site.path purpose.isAuthorizing)]
        (.work (.await site purpose .started stages value))
  | settle {site purpose value} :
      Step env state (.await site purpose .started [] value)
        [.note (.settled site.path purpose.isAuthorizing value)]
        (.work (.resume site purpose value))
  | sleep {site purpose milliseconds rest value} (wake : Nat) :
      Step env state (.await site purpose .started (.pause milliseconds :: rest) value)
        [.note (.slept site.path purpose.isAuthorizing)]
        (.work (.await site purpose (.asleep wake) rest value))
  | report {site purpose errors rest value} :
      Step env state (.await site purpose .started (.report errors :: rest) value)
        [.report
          (collected (if purpose.isAuthorizing then none else site.field.collector) errors)]
        (.work (.await site purpose .started rest value))
  | skip {site purpose value} (hr : site.route value = .skipped) :
      Step env state (.resume site purpose value) [] .done
  | null {site purpose value errors} (hr : site.route value = .null errors) :
      Step env state (.resume site purpose value)
        [.report errors, .write site.path .null site.type.isNonNull] .done
  | content {site value content} (hr : site.route value = .content content) :
      Step env state (.resume site .complete value) [] (.work (.complete site content))
  | refuse {site type value items} (hr : site.route value = .content (.items items)) :
      Step env state (.resume site (.enter type) value)
        [.report [site.failure (.listForAuthorized type.name)],
          .write site.path .null site.type.isNonNull] .done
  | enter {site type value exposed} (hr : site.route value = .content (.value exposed)) :
      Step env state (.resume site (.enter type) value) []
        (.work (.select { path := site.path, type := .object type, value := exposed }
          site.field.selections false))
  | complete {site content} :
      Step env state (.complete site content)
        ((Shaped.of env site content site.type).deeds env site)
        ((Shaped.of env site content site.type).outcome env site)

/-- The ways of leaving out a field of an object that has collapsed. -/
inductive Prunes (env : Environment) (state : State) : Work → List Deed → Task → Prop where
  | prepare {frame group rest prepared} (hp : env.config.pruneCollapsedSubtrees = true)
      (hd : state.tree.isLive frame.path = false) :
      Prunes env state (.prepare frame .check (group :: rest) prepared) []
        (.work (.prepare frame .declare rest prepared))
  | field {frame group} (hp : env.config.pruneCollapsedSubtrees = true)
      (hd : state.tree.isLive frame.path = false) :
      Prunes env state (.field frame .check group) [] .done

/-- What holds of all that calling the resolver of a field may do. -/
theorem forall_fieldDeeds {P : Deed → Prop} {env : Environment} {frame : ObjectFrame}
    {group : FieldGroup} {found : FieldLookup} {type : TypeRef}
    (hopened : P (.note (.opened (frame.path.key group.key) frame.type.name group.node.name)))
    (hcalled : ∀ resolver source, P (.note (.called (frame.path.key group.key) frame.type.name
      group.node.name frame.value resolver source)))
    (hreport : P (.report (collected (arguments env frame group found).collector
      (answer env frame group found type).1.reports))) :
    ∀ deed ∈ fieldDeeds env frame group found type, P deed := by
  intro deed hd
  rcases List.mem_append.mp hd with hd | hd
  · split at hd
    · exact List.mem_singleton.mp hd ▸ hopened
    · cases hd
  · cases found with
    | introspection field => cases hd
    | ordinary definition =>
      simp only at hd
      split at hd
      · cases hd
      · rcases List.mem_cons.mp hd with rfl | hd
        · exact hcalled _ _
        · exact List.mem_singleton.mp hd ▸ hreport

/-- A field whose resolver is called is at its site, with its value. -/
theorem ask_eq (env : Environment) (frame : ObjectFrame) (group : FieldGroup) (found : FieldLookup)
    (type : TypeRef) (state : State) :
    Preparation.ask env frame group found type state =
      ((site env frame group found type, (answer env frame group found type).1.resolution),
        state.performAll (fieldDeeds env frame group found type)) := by
  simp only [Preparation.ask, fieldDeeds, answer, Preparation.answer, site, arguments,
    State.performAll_append]
  cases found with
  | introspection field => cases env.config.tracing <;> rfl
  | ordinary definition =>
    simp only [Preparation.callResolver]
    cases env.registry.resolver? frame.type.name group.node.name with
    | none => cases env.config.tracing <;> rfl
    | some entry =>
      simp only [State.reportTo_eq]
      cases env.config.tracing <;> rfl

/-- A step of the preparation of a field fails with its lookup, declares the field, leaves it out,
goes on to its call, or calls its resolver. -/
theorem prepareField_eq (env : Environment) (frame : ObjectFrame) (group : FieldGroup)
    (going : Phase → Work) (finished : Option (Site × Resolution) → Task) (state : State)
    (phase : Phase) :
    Preparation.prepareField env frame group going finished state phase =
      match phase, lookup env frame group with
      | .declare, .error raised => (.fault raised, state)
      | .declare, .ok (_, type) =>
        (.work (going .check), state.performAll [.declare (frame.path.key group.key) type])
      | .check, _ =>
        if env.config.pruneCollapsedSubtrees && !state.tree.isLive frame.path then
          (finished none, state)
        else (.work (going .call), state)
      | .call, .error raised => (.fault raised, state)
      | .call, .ok (found, type) =>
        (finished (some (site env frame group found type,
            (answer env frame group found type).1.resolution)),
          state.performAll (fieldDeeds env frame group found type)) := by
  have hl : Preparation.lookup env frame group = lookup env frame group := rfl
  cases phase with
  | declare =>
    rw [Preparation.prepareField, hl]
    cases lookup env frame group <;> rfl
  | check => rfl
  | call =>
    rw [Preparation.prepareField, hl]
    cases lookup env frame group with
    | error raised => rfl
    | ok entry => simp only [ask_eq]

theorem isPruned_cases (env : Environment) (frame : ObjectFrame) (state : State) :
    (env.config.pruneCollapsedSubtrees && !state.tree.isLive frame.path) = true ∧
        env.config.pruneCollapsedSubtrees = true ∧ state.tree.isLive frame.path = false ∨
      (env.config.pruneCollapsedSubtrees && !state.tree.isLive frame.path) = false ∧
        (env.config.pruneCollapsedSubtrees = true → state.tree.isLive frame.path = true) := by
  cases env.config.pruneCollapsedSubtrees <;> cases state.tree.isLive frame.path <;> simp

theorem prepare_account (env : Environment) (state : State) (frame : ObjectFrame) (phase : Phase)
    (group : FieldGroup) (rest : List FieldGroup) (prepared : List (Site × Resolution)) :
    ∃ deeds, ((prepare frame phase (group :: rest) prepared).step env state).2 =
        state.performAll deeds ∧
      (Step env state (prepare frame phase (group :: rest) prepared) deeds
          ((prepare frame phase (group :: rest) prepared).step env state).1 ∨
        Prunes env state (prepare frame phase (group :: rest) prepared) deeds
          ((prepare frame phase (group :: rest) prepared).step env state).1) := by
  simp only [step, Preparation.prepare, prepareField_eq]
  cases phase with
  | declare =>
    cases hl : lookup env frame group with
    | error raised => exact ⟨[], rfl, .inl (.prepareFault (by decide) hl)⟩
    | ok entry => exact ⟨_, rfl, .inl (.prepareDeclare hl)⟩
  | check =>
    rcases isPruned_cases env frame state with ⟨he, hp, hd⟩ | ⟨he, hp⟩
    · simp only [he, if_true, Option.toList_none, List.append_nil]
      exact ⟨[], rfl, .inr (.prepare hp hd)⟩
    · simp only [he]
      exact ⟨[], rfl, .inl (.prepareAdmit hp)⟩
  | call =>
    cases hl : lookup env frame group with
    | error raised => exact ⟨[], rfl, .inl (.prepareFault (by decide) hl)⟩
    | ok entry => exact ⟨_, rfl, .inl (.prepare hl)⟩

theorem field_account (env : Environment) (state : State) (frame : ObjectFrame) (phase : Phase)
    (group : FieldGroup) :
    ∃ deeds, ((field frame phase group).step env state).2 = state.performAll deeds ∧
      (Step env state (field frame phase group) deeds
          ((field frame phase group).step env state).1 ∨
        Prunes env state (field frame phase group) deeds
          ((field frame phase group).step env state).1) := by
  simp only [step, Preparation.prepareAlone, prepareField_eq]
  cases phase with
  | declare =>
    cases hl : lookup env frame group with
    | error raised => exact ⟨[], rfl, .inl (.fieldFault (by decide) hl)⟩
    | ok entry => exact ⟨_, rfl, .inl (.fieldDeclare hl)⟩
  | check =>
    rcases isPruned_cases env frame state with ⟨he, hp, hd⟩ | ⟨he, hp⟩
    · simp only [he, if_true]
      exact ⟨[], rfl, .inr (.field hp hd)⟩
    · simp only [he]
      exact ⟨[], rfl, .inl (.fieldAdmit hp)⟩
  | call =>
    cases hl : lookup env frame group with
    | error raised => exact ⟨[], rfl, .inl (.fieldFault (by decide) hl)⟩
    | ok entry => exact ⟨_, rfl, .inl (.field hl)⟩

/-- Every step of work is one of the kinds of step, or leaves out a field. -/
theorem step_account (env : Environment) (state : State) (piece : Work) :
    ∃ deeds, (piece.step env state).2 = state.performAll deeds ∧
      (Step env state piece deeds (piece.step env state).1 ∨
        Prunes env state piece deeds (piece.step env state).1) := by
  cases piece with
  | select frame selections serial =>
    simp only [step, Preparation.select]
    cases hg : Gathering.collect env.schema env.document env.context frame.type selections with
    | error raised => exact ⟨[], rfl, .inl (.gatherFault hg)⟩
    | ok groups =>
      have h : Step env state (.select frame selections serial) _ _ := .gather hg
      rw [List.map_map] at h
      exact ⟨_, rfl, .inl h⟩
  | prepare frame phase groups prepared =>
    cases groups with
    | nil =>
      have h : Step env state (.prepare frame phase [] prepared) _ _ := .prepared
      rw [List.map_map] at h
      exact ⟨[], rfl, .inl h⟩
    | cons group rest => exact prepare_account env state frame phase group rest prepared
  | field frame phase group => exact field_account env state frame phase group
  | settle site purpose resolution =>
    cases resolution with
    | ready value => exact ⟨_, rfl, .inl .ready⟩
    | deferred stages value => exact ⟨[.draw], rfl, .inl (.queue _)⟩
  | await site purpose progress stages value =>
    cases progress with
    | queued ticket => exact ⟨_, rfl, .inl .start⟩
    | asleep wake => exact ⟨_, rfl, .inl .wake⟩
    | started =>
      cases stages with
      | nil => exact ⟨_, rfl, .inl .settle⟩
      | cons stage rest =>
        cases stage with
        | pause milliseconds => exact ⟨_, rfl, .inl (.sleep _)⟩
        | report errors =>
          simp only [step, passStage, State.reportTo_eq]
          exact ⟨_, rfl, .inl .report⟩
  | resume site purpose value =>
    simp only [step, Completion.resume]
    cases hr : site.route value with
    | skipped => exact ⟨[], rfl, .inl (.skip hr)⟩
    | null errors => exact ⟨_, rfl, .inl (.null hr)⟩
    | content content =>
      cases purpose with
      | complete => exact ⟨[], rfl, .inl (.content hr)⟩
      | enter type =>
        cases content with
        | items items => exact ⟨_, rfl, .inl (.refuse hr)⟩
        | value exposed => exact ⟨[], rfl, .inl (.enter hr)⟩
  | complete site content =>
    simp only [step, Shaped.complete_eq]
    exact ⟨_, rfl, .inl .complete⟩

end Work

end GraphQL
