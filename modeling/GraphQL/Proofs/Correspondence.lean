import GraphQL.Proofs.Lockstep
import GraphQL.Proofs.Steps

/-!
# Corresponding environments

Two environments in which an execution does the same, up to how types, selections and fields are
given. A correspondence says which types and selections stand for each other; it holds of two
environments if corresponding selections are gathered to corresponding fields, these are found and
answered alike, and values have corresponding shapes. That is asked of what an environment is used
for, once each; from it follows that machines are in lockstep.

The declared types that an execution records may differ, so the states of the two machines are
compared through a view of types that tells corresponding ones no more apart.
-/

namespace GraphQL

open Reference

section Views

variable (view : TypeRef → TypeRef)

/-- The event with declared types as they are seen. -/
def Event.viewed : Event → Event
  | .declared path type => .declared path (view type)
  | event => event

/-- The deed with declared types as they are seen. -/
def Deed.viewed : Deed → Deed
  | .declare path type => .declare path (view type)
  | .note event => .note (event.viewed view)
  | deed => deed

/-- The tree with declared types as they are seen. -/
def ResultTree.viewed (tree : ResultTree) : ResultTree :=
  { tree with types := tree.types.map fun entry => (entry.1, view entry.2) }

/-- The state with declared types as they are seen. -/
def State.viewed (state : State) : State :=
  { state with
    tree := state.tree.viewed view
    history := state.history.map fun entry => (entry.1, entry.2.viewed view) }

/-- The execution with declared types as they are seen. -/
def Execution.viewed (execution : Execution) : Execution :=
  { execution with history := execution.history.map fun entry => (entry.1, entry.2.viewed view) }

/-- States that are the same as far as types are seen. -/
def State.SeenAlike (state other : State) : Prop := state.viewed view = other.viewed view

variable {view}

theorem State.execution_viewed (state : State) :
    (state.viewed view).execution = state.execution.viewed view := by
  simp only [execution, Execution.viewed, viewed, List.map_reverse]
  rfl

theorem State.viewed_id (state : State) : state.viewed id = state := by
  have hevent : ∀ entry : Nat × Event, (entry.1, entry.2.viewed id) = entry := by
    rintro ⟨time, event⟩
    cases event <;> rfl
  simp [viewed, ResultTree.viewed, hevent]

theorem ResultTree.declaredType?_viewed (tree : ResultTree) (path : Path) :
    (tree.viewed view).declaredType? path = (tree.declaredType? path).map view := by
  simp only [declaredType?, viewed, List.find?_map, Option.map_map]
  rfl

section

variable {state other : State} (h : state.viewed view = other.viewed view)

include h

theorem State.clock_of_viewed : state.clock = other.clock :=
  congrArg (fun state => state.clock) h

theorem State.tickets_of_viewed : state.tickets = other.tickets :=
  congrArg (fun state => state.tickets) h

theorem State.data_of_viewed : state.tree.data = other.tree.data :=
  congrArg (fun state => state.tree.data) h

end

variable (hv : ∀ type, (view type).isNonNull = type.isNonNull)

include hv

/-- A write needs to know of declared types only whether they admit null. -/
theorem ResultTree.write?_viewed (tree : ResultTree) (path : Path) (entry : Entry)
    (propagating : Bool) : (tree.viewed view).write? path entry propagating =
      (tree.write? path entry propagating).map (viewed view) := by
  have hrequired : (tree.viewed view).isRequired = tree.isRequired := by
    funext path
    rw [isRequired, isRequired, declaredType?_viewed]
    cases tree.declaredType? path with
    | none => rfl
    | some type => exact hv type
  have hpoint : (tree.viewed view).collapsePoint path = tree.collapsePoint path := by
    rw [collapsePoint, collapsePoint, hrequired]
  cases propagating with
  | false =>
    simp only [write?, Bool.false_eq_true, if_false, place?, Option.map_map]
    rfl
  | true =>
    simp only [write?, if_true, collapse?, hpoint]
    cases tree.collapsePoint path with
    | nil => rfl
    | cons segment rest =>
      simp only [Option.map_map]
      rfl

theorem State.viewed_perform (state : State) (deed : Deed) :
    (state.perform deed).viewed view = (state.viewed view).perform (deed.viewed view) := by
  cases deed with
  | write path entry propagating =>
    simp only [perform, Deed.viewed, write]
    have hwrite : (state.viewed view).tree.write? path entry propagating =
        (state.tree.write? path entry propagating).map (ResultTree.viewed view) :=
      ResultTree.write?_viewed hv state.tree path entry propagating
    rw [hwrite]
    cases state.tree.write? path entry propagating <;> rfl
  | _ => rfl

theorem State.SeenAlike.perform {state other : State} (h : state.SeenAlike view other)
    (deed : Deed) : (state.perform deed).SeenAlike view (other.perform deed) := by
  rw [State.SeenAlike, State.viewed_perform hv, State.viewed_perform hv, h]

/-- The same deeds, as far as types are seen, keep states alike. -/
theorem State.SeenAlike.performAll {state other : State} (h : state.SeenAlike view other)
    {deeds others : List Deed} (hd : deeds.map (Deed.viewed view) = others.map (Deed.viewed view)) :
    (state.performAll deeds).SeenAlike view (other.performAll others) := by
  have hall : ∀ (deeds : List Deed) (state : State), (state.performAll deeds).viewed view =
      (state.viewed view).performAll (deeds.map (Deed.viewed view)) := by
    intro deeds
    induction deeds with
    | nil => exact fun _ => rfl
    | cons deed rest ih =>
      intro state
      rw [State.performAll_cons, ih, State.viewed_perform hv]
      rfl
  rw [State.SeenAlike, hall, hall, hd, h]

end Views

/-- The site with another declared type and other sub-selections for its field. -/
def Site.exchange (site : Site) (type : TypeRef) (selections : List Selection) : Site :=
  { site with type, field := { site.field with selections } }

/-- Definitions of the same kind: of ordinary fields, or of the same introspection field. -/
inductive FieldLookup.Parallel : FieldLookup → FieldLookup → Prop where
  | ordinary (definition other : FieldDef) : Parallel (.ordinary definition) (.ordinary other)
  | introspection (field : MetaField) : Parallel (.introspection field) (.introspection field)

/-- What stands for what in two environments. -/
structure Correspondence where
  /-- What is seen of the declared types that are recorded. -/
  view : TypeRef → TypeRef
  type : TypeRef → TypeRef → Prop
  definition : TypeDef → TypeDef → Prop
  selections : List Selection → List Selection → Prop
  group : FieldGroup → FieldGroup → Prop

namespace Correspondence

section Relations

variable (c : Correspondence)

/-- Sites of corresponding types, with corresponding sub-selections. -/
inductive Sites : Site → Site → Prop where
  | intro {site : Site} {type : TypeRef} {selections : List Selection}
      (htype : c.type site.type type) (hselections : c.selections site.field.selections selections) :
      Sites site (site.exchange type selections)

inductive Purposes : Purpose → Purpose → Prop where
  | complete : Purposes .complete .complete
  | enter {type other : ObjectDef} (h : c.definition (.object type) (.object other)) :
      Purposes (.enter type) (.enter other)

/-- Objects of corresponding types. -/
inductive Frames : ObjectFrame → ObjectFrame → Prop where
  | intro {frame : ObjectFrame} {type : TypeDef} (h : c.definition frame.type type) :
      Frames frame { frame with type }

/-- A field that has been prepared. -/
def Prepared (prepared other : Site × Resolution) : Prop :=
  c.Sites prepared.1 other.1 ∧ prepared.2 = other.2

/-- Pieces of work on what corresponds. -/
inductive Works : Work → Work → Prop where
  | select {frame frame' : ObjectFrame} {selections others : List Selection} (serial : Bool)
      (hf : c.Frames frame frame') (hs : c.selections selections others) :
      Works (.select frame selections serial) (.select frame' others serial)
  | prepare {frame frame' : ObjectFrame} {phase : Phase} {groups others : List FieldGroup}
      {prepared prepared' : List (Site × Resolution)} (hf : c.Frames frame frame')
      (hg : List.Forall₂ c.group groups others) (hp : List.Forall₂ c.Prepared prepared prepared') :
      Works (.prepare frame phase groups prepared) (.prepare frame' phase others prepared')
  | field {frame frame' : ObjectFrame} {phase : Phase} {group other : FieldGroup}
      (hf : c.Frames frame frame') (hg : c.group group other) :
      Works (.field frame phase group) (.field frame' phase other)
  | settle {site other : Site} {purpose purpose' : Purpose} (resolution : Resolution)
      (hs : c.Sites site other) (hp : c.Purposes purpose purpose') :
      Works (.settle site purpose resolution) (.settle other purpose' resolution)
  | await {site other : Site} {purpose purpose' : Purpose} (progress : Progress)
      (stages : List Stage) (value : FieldValue) (hs : c.Sites site other)
      (hp : c.Purposes purpose purpose') :
      Works (.await site purpose progress stages value) (.await other purpose' progress stages value)
  | resume {site other : Site} {purpose purpose' : Purpose} (value : FieldValue)
      (hs : c.Sites site other) (hp : c.Purposes purpose purpose') :
      Works (.resume site purpose value) (.resume other purpose' value)
  | complete {site other : Site} (content : Content) (hs : c.Sites site other) :
      Works (.complete site content) (.complete other content)

/-- Values of corresponding shapes. -/
inductive Shapes : Shaped → Shaped → Prop where
  | null (errors : List ResponseError) : Shapes (.null errors) (.null errors)
  | leaf (output : Json) : Shapes (.leaf output) (.leaf output)
  | list {itemType other : TypeRef} (items : List Resolution) (h : c.type itemType other) :
      Shapes (.list itemType items) (.list other items)
  | object {type other : ObjectDef} (value : Json)
      (h : c.definition (.object type) (.object other)) :
      Shapes (.object type value) (.object other value)
  | fault (raised : Fault) : Shapes (.fault raised) (.fault raised)

/-- Fields that stand for each other are asked for in the same way. -/
structure Groups (group other : FieldGroup) : Prop where
  key : group.key = other.key
  name : group.node.name = other.node.name
  position : group.node.position = other.node.position
  selections : c.selections group.selections other.selections

/-- What has been looked up for a field leads to corresponding values. -/
structure Fields (env env' : Environment) (frame frame' : ObjectFrame) (group group' : FieldGroup)
    (entry other : FieldLookup × TypeRef) : Prop where
  type : c.type entry.2 other.2
  parallel : entry.1.Parallel other.1
  collector : (arguments env frame group entry.1).collector =
    (arguments env' frame' group' other.1).collector
  answer : (answer env frame group entry.1 entry.2).1 =
    (answer env' frame' group' other.1 other.2).1

/-- The environments are used alike. -/
structure Holds (env env' : Environment) : Prop where
  config : env.config = env'.config
  registry : env.registry = env'.registry
  required : ∀ type, (c.view type).isNonNull = type.isNonNull
  view : ∀ {type other}, c.type type other → c.view type = c.view other
  name : ∀ {type other}, c.definition type other → type.name = other.name
  group : ∀ {group other}, c.group group other → c.Groups group other
  collect : ∀ {type other selections others}, c.definition type other →
    c.selections selections others → Concur (List.Forall₂ c.group)
      (Gathering.collect env.schema env.document env.context type selections)
      (Gathering.collect env'.schema env'.document env'.context other others)
  field : ∀ {frame frame' group group'}, c.Frames frame frame' → c.group group group' →
    Concur (c.Fields env env' frame frame' group group')
      (lookup env frame group) (lookup env' frame' group')
  shape : ∀ {site other}, c.Sites site other → ∀ content,
    c.Shapes (Shaped.of env site content site.type) (Shaped.of env' other content other.type)
  authorize : ∀ {type other}, c.definition (.object type) (.object other) → ∀ value,
    env.registry.authorize type value env.context =
      env'.registry.authorize other value env'.context

/-- What a step comes to in both environments. -/
def Steps (reached other : Task × State) : Prop :=
  reached.1.Alike c.Works other.1 ∧ reached.2.SeenAlike c.view other.2

end Relations

variable {c : Correspondence}

theorem Purposes.isAuthorizing {purpose other : Purpose} (h : c.Purposes purpose other) :
    purpose.isAuthorizing = other.isAuthorizing := by
  cases h <;> rfl

theorem Shapes.refl (ht : ∀ type, c.type type type) (hd : ∀ type, c.definition type type)
    (shaped : Shaped) : c.Shapes shaped shaped := by
  cases shaped with
  | null errors => exact .null errors
  | leaf output => exact .leaf output
  | list itemType items => exact .list items (ht itemType)
  | object type value => exact .object value (hd _)
  | fault raised => exact .fault raised

theorem Prepared.settling {prepared other : Site × Resolution} (h : c.Prepared prepared other) :
    (Preparation.settling prepared).Alike c.Works (Preparation.settling other) := by
  refine .work ?_
  rw [h.2]
  exact .settle _ h.1 .complete

theorem Sites.path {site other : Site} (h : c.Sites site other) : site.path = other.path := by
  cases h
  rfl

theorem Sites.collector {site other : Site} (h : c.Sites site other) :
    site.field.collector = other.field.collector := by
  cases h
  rfl

theorem Frames.path {frame other : ObjectFrame} (h : c.Frames frame other) :
    frame.path = other.path := by
  cases h
  rfl

theorem Sites.item {site other : Site} (h : c.Sites site other) {type type' : TypeRef}
    (ht : c.type type type') (place : Nat) : c.Sites (site.item type place) (other.item type' place) := by
  cases h with
  | intro _ hselections => exact .intro ht hselections

theorem Sites.elements {site other : Site} (h : c.Sites site other) {type type' : TypeRef}
    (ht : c.type type type') (count : Nat) :
    List.Forall₂ c.Sites (elements site type count) (elements other type' count) := by
  rw [Reference.elements, Reference.elements, List.forall₂_map_left_iff,
    List.forall₂_map_right_iff, List.forall₂_same]
  exact fun place _ => h.item ht place

namespace Holds

variable {env env' : Environment} (h : c.Holds env env')

include h

theorem isNonNull {type other : TypeRef} (ht : c.type type other) :
    type.isNonNull = other.isNonNull := by
  rw [← h.required type, ← h.required other, h.view ht]

theorem route {site other : Site} (hs : c.Sites site other) (value : FieldValue) :
    site.route value = other.route value := by
  cases hs with | @intro type selections htype hselections
  have hrequired : (site.exchange type selections).type.isNonNull = site.type.isNonNull :=
    (h.isNonNull htype).symm
  cases value with
  | value value =>
    cases value with
    | null =>
      rw [Site.route, Site.route, hrequired]
      rfl
    | _ => rfl
  | errors errors => cases errors <;> rfl
  | _ => rfl

section Fields

variable {frame frame' : ObjectFrame} {group group' : FieldGroup} (hf : c.Frames frame frame')
  (hg : c.group group group') {entry entry' : FieldLookup × TypeRef}
  (he : c.Fields env env' frame frame' group group' entry entry')

include hf hg he

theorem site : c.Sites (site env frame group entry.1 entry.2)
    (Reference.site env' frame' group' entry'.1 entry'.2) := by
  cases hf with | @intro type hdefinition
  have hgroup := h.group hg
  have hsite : Reference.site env' { frame with type } group' entry'.1 entry'.2 =
      (Reference.site env frame group entry.1 entry.2).exchange entry'.2 group'.selections := by
    rw [Reference.site, Reference.site, ← he.collector, ← hgroup.key, ← hgroup.name,
      ← hgroup.position, ← h.name hdefinition]
    rfl
  rw [hsite]
  exact .intro he.type hgroup.selections

theorem fieldDeeds :
    (Work.fieldDeeds env frame group entry.1 entry.2).map (Deed.viewed c.view) =
      (Work.fieldDeeds env' frame' group' entry'.1 entry'.2).map (Deed.viewed c.view) := by
  have hcollector := he.collector
  have hanswer := he.answer
  have hparallel := he.parallel
  cases hf with | @intro type hdefinition
  obtain ⟨found, declared⟩ := entry
  obtain ⟨found', declared'⟩ := entry'
  dsimp only at hcollector hanswer hparallel ⊢
  simp only [Work.fieldDeeds, List.map_append, ← hcollector, ← hanswer, ← (h.group hg).key,
    ← (h.group hg).name, ← h.name hdefinition, ← h.config, ← h.registry]
  cases hparallel <;> rfl

end Fields

theorem prepareField {frame frame' : ObjectFrame} {group group' : FieldGroup}
    (hf : c.Frames frame frame') (hg : c.group group group') {going going' : Phase → Work}
    {finished finished' : Option (Site × Resolution) → Task}
    (hgoing : ∀ phase, c.Works (going phase) (going' phase))
    (hfinished : ∀ next next', Option.Rel c.Prepared next next' →
      (finished next).Alike c.Works (finished' next'))
    {state state' : State} (hq : state.SeenAlike c.view state') (phase : Phase) :
    c.Steps (Preparation.prepareField env frame group going finished state phase)
      (Preparation.prepareField env' frame' group' going' finished' state' phase) := by
  have hpath := hf.path
  have hlive : state.tree.isLive frame.path = state'.tree.isLive frame'.path := by
    rw [ResultTree.isLive, ResultTree.isLive, State.data_of_viewed hq, hpath]
  have hlookup := h.field hf hg
  rw [Work.prepareField_eq, Work.prepareField_eq, ← h.config, ← hlive, ← hpath,
    ← (h.group hg).key]
  generalize lookup env frame group = reached, lookup env' frame' group' = reached' at hlookup
  cases phase with
  | declare =>
    cases hlookup with
    | error raised => exact ⟨.fault raised, hq⟩
    | ok he =>
      refine ⟨.work (hgoing .check), hq.performAll h.required ?_⟩
      simp only [List.map_cons, List.map_nil, Deed.viewed, h.view he.type]
  | check =>
    dsimp only
    split
    · exact ⟨hfinished _ _ .none, hq⟩
    · exact ⟨.work (hgoing .call), hq⟩
  | call =>
    cases hlookup with
    | error raised => exact ⟨.fault raised, hq⟩
    | ok he =>
      exact ⟨hfinished _ _ (.some ⟨h.site hf hg he, congrArg Reply.resolution he.answer⟩),
        hq.performAll h.required (h.fieldDeeds hf hg he)⟩

theorem select {frame frame' : ObjectFrame} {selections others : List Selection}
    (hf : c.Frames frame frame') (hs : c.selections selections others) (serial : Bool)
    {state state' : State} (hq : state.SeenAlike c.view state') :
    c.Steps (Preparation.select env frame selections serial state)
      (Preparation.select env' frame' others serial state') := by
  have hframes := hf
  cases hf with | @intro type hdefinition
  have hcollect := h.collect hdefinition hs
  rw [Preparation.select, Preparation.select]
  generalize Gathering.collect env.schema env.document env.context frame.type selections = reached,
    Gathering.collect env'.schema env'.document env'.context type others = reached' at hcollect
  cases hcollect with
  | error raised => exact ⟨.fault raised, hq⟩
  | @ok groups others hgroups =>
    have hkeys : groups.map FieldGroup.key = others.map FieldGroup.key :=
      map_eq_of_forall₂ hgroups fun hgroup => (h.group hgroup).key
    dsimp only
    rw [hkeys]
    refine ⟨?_, hq.perform h.required (.write frame.path _ false)⟩
    cases serial with
    | false => exact .work (.prepare hframes hgroups .nil)
    | true => exact .inOrder (List.rel_map (fun _ _ hgroup => .work (.field hframes hgroup)) hgroups)

theorem prepare {frame frame' : ObjectFrame} {phase : Phase} {groups others : List FieldGroup}
    {prepared prepared' : List (Site × Resolution)} (hf : c.Frames frame frame')
    (hg : List.Forall₂ c.group groups others) (hp : List.Forall₂ c.Prepared prepared prepared')
    {state state' : State} (hq : state.SeenAlike c.view state') :
    c.Steps (Preparation.prepare env frame phase groups prepared state)
      (Preparation.prepare env' frame' phase others prepared' state') := by
  cases hg with
  | nil =>
    have hpath := hf.path
    rw [Preparation.prepare, Preparation.prepare, ← h.config, ← hpath]
    exact ⟨.dispatch (List.rel_map (fun _ _ hsite => hsite.settling) hp) _ _, hq⟩
  | cons hgroup hrest =>
    refine h.prepareField hf hgroup (fun _ => .prepare hf (.cons hgroup hrest) hp)
      (fun next next' hnext => ?_) hq phase
    refine .work (.prepare hf hrest (List.rel_append hp ?_))
    cases hnext with
    | none => exact .nil
    | some hsite => exact .cons hsite .nil

theorem prepareAlone {frame frame' : ObjectFrame} {phase : Phase} {group group' : FieldGroup}
    (hf : c.Frames frame frame') (hg : c.group group group') {state state' : State}
    (hq : state.SeenAlike c.view state') :
    c.Steps (Preparation.prepareAlone env frame phase group state)
      (Preparation.prepareAlone env' frame' phase group' state') := by
  refine h.prepareField hf hg (fun _ => .field hf hg) (fun next next' hnext => ?_) hq phase
  cases hnext with
  | none => exact .done
  | some hsite => exact hsite.settling

section Shaping

variable {site other : Site} (hs : c.Sites site other) {shaped shaped' : Shaped}
  (hshapes : c.Shapes shaped shaped')

include hs

theorem declared {itemType itemType' : TypeRef} (ht : c.type itemType itemType') (count : Nat) :
    ((elements site itemType count).map fun element =>
        Deed.viewed c.view (.declare element.path element.type)) =
      (elements other itemType' count).map fun element =>
        Deed.viewed c.view (.declare element.path element.type) := by
  refine map_eq_of_forall₂ (hs.elements ht count) fun helement => ?_
  cases helement with
  | intro htype hselections =>
    rw [Deed.viewed, Deed.viewed, h.view htype]
    rfl

include hshapes

theorem deeds : (shaped.deeds env site).map (Deed.viewed c.view) =
    (shaped'.deeds env' other).map (Deed.viewed c.view) := by
  have hrequired : site.type.isNonNull = other.type.isNonNull := by
    cases hs with
    | intro htype hselections => exact h.isNonNull htype
  have hpath := hs.path
  cases hshapes with
  | null errors => rw [Shaped.deeds, Shaped.deeds, hrequired, hpath]
  | leaf output => rw [Shaped.deeds, Shaped.deeds, hpath]
  | list items ht =>
    rw [Shaped.deeds, Shaped.deeds, List.map_cons, List.map_cons, List.map_map, List.map_map,
      hpath]
    exact congrArg _ (h.declared hs ht items.length)
  | object value hdefinition =>
    have hname := h.name hdefinition
    rw [Shaped.deeds, Shaped.deeds, Shaped.asked, Shaped.asked, ← h.registry, hpath]
    dsimp only [TypeDefOf.name] at hname
    rw [hname]
  | fault raised => rfl

theorem outcome : (shaped.outcome env site).Alike c.Works (shaped'.outcome env' other) := by
  have hpath := hs.path
  cases hshapes with
  | null errors => exact .done
  | leaf output => exact .done
  | @list itemType itemType' items ht =>
    have hworks : List.Forall₂ c.Works (Shaped.settling site itemType items)
        (Shaped.settling other itemType' items) := by
      rw [Shaped.settling, Shaped.settling, Reference.elements, Reference.elements,
        List.zip_map_left, List.zip_map_left, List.map_map, List.map_map,
        List.forall₂_map_left_iff, List.forall₂_map_right_iff, List.forall₂_same]
      exact fun element _ => .settle element.2 (hs.item ht element.1) .complete
    rw [Shaped.outcome, Shaped.outcome, ← h.config, hpath]
    exact .dispatch (List.rel_map (fun _ _ hwork => .work hwork) hworks) _ _
  | object value hdefinition =>
    rw [Shaped.outcome, Shaped.outcome, h.authorize hdefinition value]
    exact .work (.settle _ hs (.enter hdefinition))
  | fault raised => exact .fault raised

end Shaping

theorem complete {site other : Site} (hs : c.Sites site other) (content : Content)
    {state state' : State} (hq : state.SeenAlike c.view state') :
    c.Steps (Completion.complete env site content state site.type)
      (Completion.complete env' other content state' other.type) := by
  have hshapes := h.shape hs content
  rw [Shaped.complete_eq, Shaped.complete_eq]
  exact ⟨h.outcome hs hshapes, hq.performAll h.required (h.deeds hs hshapes)⟩

theorem resume {site other : Site} (hs : c.Sites site other) {purpose purpose' : Purpose}
    (hp : c.Purposes purpose purpose') (value : FieldValue) {state state' : State}
    (hq : state.SeenAlike c.view state') :
    c.Steps (Completion.resume site purpose value state)
      (Completion.resume other purpose' value state') := by
  have hsites := hs
  cases hs with | @intro type selections htype hselections
  have hnull : ∀ errors, (state.writeNull site errors).SeenAlike c.view
      (state'.writeNull (site.exchange type selections) errors) := by
    intro errors
    have hreport := hq.perform h.required (.report errors)
    have hwritten := hreport.perform h.required (.write site.path .null site.type.isNonNull)
    rw [h.isNonNull htype] at hwritten
    rw [State.writeNull, h.isNonNull htype]
    exact hwritten
  rw [Completion.resume, Completion.resume, ← h.route hsites]
  cases site.route value with
  | skipped => exact ⟨.done, hq⟩
  | null errors => exact ⟨.done, hnull errors⟩
  | content content =>
    cases hp with
    | complete => exact ⟨.work (.complete content hsites), hq⟩
    | enter hdefinition =>
      cases content with
      | items items =>
        have hname := h.name hdefinition
        dsimp only [TypeDefOf.name] at hname
        simp only [Completion.enter, State.fail, ← hname]
        exact ⟨.done, hnull _⟩
      | value value => exact ⟨.work (.select false (.intro hdefinition) hselections), hq⟩

/-- A step of both has the same effect, as far as types are seen, and leaves work that
corresponds. -/
theorem step {piece other : Work} (hw : c.Works piece other) {state state' : State}
    (hq : state.SeenAlike c.view state') :
    c.Steps (piece.step env state) (other.step env' state') := by
  cases hw with
  | select serial hf hs => exact h.select hf hs serial hq
  | prepare hf hg hp => exact h.prepare hf hg hp hq
  | field hf hg => exact h.prepareAlone hf hg hq
  | resume value hs hp => exact h.resume hs hp value hq
  | complete content hs => exact h.complete hs content hq
  | settle resolution hs hp =>
    cases resolution with
    | ready value =>
      rw [Work.step, Work.step, ← hs.path, ← hp.isAuthorizing]
      exact ⟨.work (.resume value hs hp), hq.perform h.required (.note (.settled _ _ value))⟩
    | deferred stages value =>
      have hwork := Works.await (.queued state.tickets) stages value hs hp
      refine ⟨.work ?_, hq.perform h.required .draw⟩
      rw [← State.tickets_of_viewed hq]
      exact hwork
  | await progress stages value hs hp =>
    cases progress with
    | queued ticket =>
      rw [Work.step, Work.step, ← hs.path, ← hp.isAuthorizing]
      exact ⟨.work (.await _ stages value hs hp), hq.perform h.required (.note (.started _ _))⟩
    | asleep wake =>
      rw [Work.step, Work.step, ← hs.path, ← hp.isAuthorizing]
      exact ⟨.work (.await _ stages value hs hp), hq.perform h.required (.note (.woke _ _))⟩
    | started =>
      cases stages with
      | nil =>
        rw [Work.step, Work.step, ← hs.path, ← hp.isAuthorizing]
        exact ⟨.work (.resume value hs hp), hq.perform h.required (.note (.settled _ _ value))⟩
      | cons stage rest =>
        cases stage with
        | pause milliseconds =>
          have hclock := State.clock_of_viewed hq
          simp only [Work.step, Work.passStage, ← hs.path, ← hp.isAuthorizing, hclock]
          exact ⟨.work (.await _ rest value hs hp), hq.perform h.required (.note (.slept _ _))⟩
        | report errors =>
          simp only [Work.step, Work.passStage, ← hp.isAuthorizing, ← hs.collector,
            State.reportTo_eq]
          exact ⟨.work (.await _ rest value hs hp), hq.perform h.required (.report _)⟩

/-- Machines that work on what corresponds are in lockstep. -/
theorem lockstep : Lockstep env env' (State.SeenAlike c.view) c.Works where
  config := h.config
  clock hq := State.clock_of_viewed hq
  pass {state state'} hq clock := by
    have hviewed : state.viewed c.view = state'.viewed c.view := hq
    exact congrArg (fun state : State => { state with clock := clock }) hviewed
  progress hw := by cases hw <;> rfl
  task hw _ _ hq := (h.step hw hq).1
  state hw _ _ hq := (h.step hw hq).2

end Holds

/-- The machines of corresponding operations on corresponding root types start alike. -/
theorem start_alike (c : Correspondence) {operation other : Operation} {rootType rootType' : TypeDef}
    (hk : operation.kind = other.kind) (ht : c.definition rootType rootType')
    (hs : c.selections operation.selections other.selections) (root : Json) :
    (Machine.start operation rootType root).Alike (State.SeenAlike c.view) c.Works
      (.start other rootType' root) := by
  rw [Machine.start, Machine.start, ← hk]
  exact ⟨.work (.select _ (.intro ht) hs), rfl⟩

end Correspondence

end GraphQL
