import GraphQL.Proofs.Flattening
import GraphQL.Proofs.Issues
import GraphQL.Proofs.Refinement

/-!
# Calls of resolvers

A field that is to be prepared stays so until a step looks it up and calls its resolver; what the
resolver has answered is under way until it settles. Without pruning no field is left out, so where
a run ends well, each field of each object on which selections are executed has been called, and only
once, since no path is called twice. A field is called for by the first node of its key.
-/

namespace GraphQL

open Reference Strand

namespace Work

variable {frame : ObjectFrame} {group : FieldGroup} {path : Path} {value : FieldValue}

/-- The work is still to prepare the field. -/
def Intends (env : Environment) (frame : ObjectFrame) (group : FieldGroup) : Work → Prop
  | select object selections _ => object = frame ∧ ∃ groups, group ∈ groups ∧
      Gathering.collect env.schema env.document env.context frame.type selections = .ok groups
  | prepare object _ groups _ => object = frame ∧ group ∈ groups
  | field object _ other => object = frame ∧ other = group
  | _ => False

/-- The work is still to settle the value at the path. -/
def Owes (path : Path) (value : FieldValue) : Work → Prop
  | prepare _ _ _ prepared => ∃ entry ∈ prepared, entry.1.path = path ∧ entry.2.settled = value
  | settle site .complete resolution => site.path = path ∧ resolution.settled = value
  | await site .complete _ _ settled => site.path = path ∧ settled = value
  | _ => False

variable {env : Environment} {state : State} {piece : Work} {deeds : List Deed} {outcome : Task}

/-- What is owed is passed on until it settles. -/
theorem Step.owes (h : Step env state piece deeds outcome) (ho : piece.Owes path value)
    (hs : Sound outcome.strands) :
    (∃ left ∈ works outcome.strands, left.Owes path value) ∨
      .note (.settled path false value) ∈ deeds := by
  cases h with
  | prepareFault => exact absurd (List.mem_singleton_self _) (hs _)
  | gatherFault | gather | fieldFault | fieldDeclare | fieldAdmit | field | skip | null | content
  | refuse | enter | complete => exact ho.elim
  | prepared =>
    obtain ⟨entry, hm, hpath, hvalue⟩ := ho
    refine .inl ⟨.settle entry.1 .complete entry.2, ?_, hpath, hvalue⟩
    rw [works_dispatch]
    exact List.mem_map_of_mem hm
  | prepareDeclare | prepareAdmit => exact .inl ⟨_, List.mem_singleton_self _, ho⟩
  | prepare =>
    obtain ⟨entry, hm, hpath, hvalue⟩ := ho
    exact .inl ⟨_, List.mem_singleton_self _, entry, List.mem_append_left _ hm, hpath, hvalue⟩
  | @ready site purpose given | @settle site purpose given =>
    cases purpose with
    | enter => exact ho.elim
    | complete =>
      obtain ⟨rfl, rfl⟩ := ho
      exact .inr (List.mem_singleton_self _)
  | @queue site purpose | @start site purpose | @wake site purpose | @sleep site purpose
  | @report site purpose =>
    cases purpose with
    | enter => exact ho.elim
    | complete => exact .inl ⟨_, List.mem_singleton_self _, ho⟩

/-- A field has been looked up, it has been opened and its resolver called, and its value is owed. -/
structure Prepares (env : Environment) (frame : ObjectFrame) (group : FieldGroup)
    (deeds : List Deed) (pieces : List Work) (found : FieldLookup) (type : TypeRef) : Prop where
  lookup : lookup env frame group = .ok (found, type)
  deeds : fieldDeeds env frame group found type ⊆ deeds
  owes : ∃ left ∈ pieces, left.Owes (frame.path.key group.key)
    (answer env frame group found type).1.resolution.settled

/-- A field stays to be prepared until it is. -/
theorem Step.intends (h : Step env state piece deeds outcome) (hi : piece.Intends env frame group)
    (hs : Sound outcome.strands) :
    (∃ left ∈ works outcome.strands, left.Intends env frame group) ∨
      ∃ found type, Prepares env frame group deeds (works outcome.strands) found type := by
  cases h with
  | gatherFault | prepareFault | fieldFault => exact absurd (List.mem_singleton_self _) (hs _)
  | prepared => exact absurd hi.2 List.not_mem_nil
  | ready | queue | start | wake | settle | sleep | report | skip | null | content | refuse | enter
  | complete => exact hi.elim
  | @gather object selections serial groups hg =>
    obtain ⟨rfl, others, hm, hcollect⟩ := hi
    obtain rfl : others = groups := Except.ok.inj (hcollect.symm.trans hg)
    cases serial with
    | true =>
      refine .inl ⟨.field object .declare group, ?_, rfl, rfl⟩
      rw [if_pos rfl, works_inOrder]
      exact List.mem_map_of_mem hm
    | false => exact .inl ⟨_, List.mem_singleton_self _, rfl, hm⟩
  | prepareDeclare | prepareAdmit | fieldDeclare | fieldAdmit =>
    exact .inl ⟨_, List.mem_singleton_self _, hi⟩
  | @prepare object other rest prepared found type hl =>
    obtain ⟨rfl, hm⟩ := hi
    rcases List.mem_cons.mp hm with rfl | hm
    · exact .inr ⟨found, type, hl, List.Subset.refl _, _, List.mem_singleton_self _, _,
        List.mem_append_right _ (List.mem_singleton_self _), rfl, rfl⟩
    · exact .inl ⟨_, List.mem_singleton_self _, rfl, hm⟩
  | @field object other found type hl =>
    obtain ⟨rfl, rfl⟩ := hi
    exact .inr ⟨found, type, hl, List.Subset.refl _, _, List.mem_singleton_self _, rfl, rfl⟩

end Work

theorem State.mem_events_performAll (state : State) {deeds : List Deed} {event : Event}
    (h : .note event ∈ deeds) : event ∈ (state.performAll deeds).events := by
  induction deeds generalizing state with
  | nil => cases h
  | cons deed rest ih =>
    rw [State.performAll_cons]
    rcases List.mem_cons.mp h with rfl | h
    · obtain ⟨more, hmore⟩ := (state.perform (.note event)).events_performAll rest
      rw [hmore, State.events_note]
      simp
    · exact ih _ h

/-- What has become of a field: it is still to be prepared, or it has been, and its value has settled
or is still to. -/
inductive Attended (env : Environment) (frame : ObjectFrame) (group : FieldGroup)
    (events : List Event) (pieces : List Work) : Prop where
  | intended {piece : Work} (hm : piece ∈ pieces) (hi : piece.Intends env frame group)
  | prepared {found : FieldLookup} {type : TypeRef}
      (lookup : lookup env frame group = .ok (found, type))
      (noted : ∀ event, .note event ∈ Work.fieldDeeds env frame group found type → event ∈ events)
      (settles : (∃ piece ∈ pieces, piece.Owes (frame.path.key group.key)
          (answer env frame group found type).1.resolution.settled) ∨
        .settled (frame.path.key group.key) false
          (answer env frame group found type).1.resolution.settled ∈ events)

namespace Machine

variable {env : Environment} {machine next first last : Machine} {steps : Nat} {address : Address}
variable {frame : ObjectFrame} {group : FieldGroup} {selections : List Selection}

/-- Where there is no fault afterwards, there was none before. -/
theorem sound_advance (move : machine.perform? env (.advance address) = some next)
    (hs : Sound next.task.strands) : Sound machine.task.strands := by
  obtain ⟨left, piece, right, deeds, outcome, hstrands, -, htrim, -⟩ := advance_account move
  rw [htrim.eq_of_sound hs] at hs
  exact hstrands ▸ hs.work piece

theorem events_advance (move : machine.perform? env (.advance address) = some next) :
    ∃ more, next.state.events = machine.state.events ++ more := by
  obtain ⟨left, piece, right, deeds, outcome, -, -, -, hstate, -⟩ := advance_account move
  exact hstate ▸ machine.state.events_performAll deeds

/-- Where a run ends without a fault there was none before. -/
theorem Run.sound (h : Run env steps first last) (hs : Sound last.task.strands) :
    Sound first.task.strands := by
  induction h with
  | refl => exact hs
  | advance move _ ih => exact sound_advance move (ih hs)
  | pass move _ ih =>
    obtain ⟨wake, -, rfl⟩ := pass_eq move
    exact ih hs

section Unpruned

variable (hp : env.config.pruneCollapsedSubtrees = false)

include hp

/-- Without pruning and without a fault, a piece of work stays as it is or takes its step, and all
that the step leaves to do is left. -/
theorem advance_piece (move : machine.perform? env (.advance address) = some next)
    (hs : Sound next.task.strands) {piece : Work} (hm : piece ∈ Strand.works machine.task.strands) :
    piece ∈ Strand.works next.task.strands ∨
      ∃ deeds outcome, Work.Step env machine.state piece deeds outcome ∧ Sound outcome.strands ∧
        Strand.works outcome.strands ⊆ Strand.works next.task.strands ∧
        next.state = machine.state.performAll deeds := by
  obtain ⟨left, taken, right, deeds, outcome, hstrands, -, htrim, hstate, hstep⟩ :=
    advance_account move
  have hnext := htrim.eq_of_sound hs
  rw [hnext] at hs ⊢
  rw [hstrands, works_append, works_ok] at hm
  simp only [works_append, List.mem_append]
  rcases List.mem_append.mp hm with hm | hm
  · exact .inl (.inl (.inl hm))
  · rcases List.mem_cons.mp hm with rfl | hm
    · rcases hstep with hstep | hstep
      · refine .inr ⟨deeds, outcome, hstep, (sound_append.mp (sound_append.mp hs).1).2, ?_, hstate⟩
        exact fun other ho => List.mem_append_left _ (List.mem_append_right _ ho)
      · cases hstep <;> simp_all
    · exact .inl (.inr hm)

/-- Where a run ends without a fault and without work, the selections that were to be executed have
been gathered. -/
theorem Run.gathers (h : Run env steps first last) (hs : Sound last.task.strands)
    (hn : Strand.works last.task.strands = []) {serial : Bool}
    (hm : .select frame selections serial ∈ Strand.works first.task.strands) :
    ∃ groups, Gathering.collect env.schema env.document env.context frame.type selections =
      .ok groups := by
  induction h with
  | refl =>
    rw [hn] at hm
    cases hm
  | advance move rest ih =>
    rcases advance_piece hp move (rest.sound hs) hm with hm | ⟨deeds, outcome, hstep, hsound, -⟩
    · exact ih hs hn hm
    · cases hstep with
      | gatherFault => exact absurd (List.mem_singleton_self _) (hsound _)
      | gather hg => exact ⟨_, hg⟩
  | pass move _ ih =>
    obtain ⟨wake, -, rfl⟩ := pass_eq move
    exact ih hs hn hm

theorem attended_advance (move : machine.perform? env (.advance address) = some next)
    (hs : Sound next.task.strands)
    (h : Attended env frame group machine.state.events (Strand.works machine.task.strands)) :
    Attended env frame group next.state.events (Strand.works next.task.strands) := by
  obtain ⟨more, hmore⟩ := events_advance move
  have hkeep : ∀ event ∈ machine.state.events, event ∈ next.state.events := fun event he =>
    hmore ▸ List.mem_append_left _ he
  cases h with
  | intended hm hi =>
    rcases advance_piece hp move hs hm with hm | ⟨deeds, outcome, hstep, hsound, hleft, hstate⟩
    · exact .intended hm hi
    · rcases hstep.intends hi hsound with ⟨other, ho, hi⟩ | ⟨found, type, hprepares⟩
      · exact .intended (hleft ho) hi
      · obtain ⟨other, ho, howes⟩ := hprepares.owes
        refine .prepared hprepares.lookup (fun event he => ?_) (.inl ⟨other, hleft ho, howes⟩)
        exact hstate ▸ machine.state.mem_events_performAll (hprepares.deeds he)
  | prepared hl hnoted hsettles =>
    refine .prepared hl (fun event he => hkeep event (hnoted event he)) ?_
    rcases hsettles with ⟨piece, hm, howes⟩ | hsettled
    · rcases advance_piece hp move hs hm with hm | ⟨deeds, outcome, hstep, hsound, hleft, hstate⟩
      · exact .inl ⟨piece, hm, howes⟩
      · rcases hstep.owes howes hsound with ⟨other, ho, howes⟩ | hnote
        · exact .inl ⟨other, hleft ho, howes⟩
        · exact .inr (hstate ▸ machine.state.mem_events_performAll hnote)
    · exact .inr (hkeep _ hsettled)

/-- A field that some work was to prepare has been attended to at the end of a run. -/
theorem Run.attends (h : Run env steps first last) (hs : Sound last.task.strands)
    (hf : Attended env frame group first.state.events (Strand.works first.task.strands)) :
    Attended env frame group last.state.events (Strand.works last.task.strands) := by
  induction h with
  | refl => exact hf
  | advance move rest ih => exact ih hs (attended_advance hp move (rest.sound hs) hf)
  | pass move _ ih =>
    obtain ⟨wake, -, rfl⟩ := pass_eq move
    exact ih hs hf

end Unpruned

end Machine

/-- What the resolver of a field is told of the node by which it is asked for, and what it replies. -/
def Resolver.reply (resolver : Resolver) (env : Environment) (frame : ObjectFrame) (node : FieldNode)
    (definition : FieldDef) (type : TypeRef) : Reply :=
  let path := frame.path.key node.responseKey
  resolver.resolve frame.value (Preparation.arguments env definition node path) env.context
    { fieldName := node.name, parentType := frame.type.name, returnType := type.text, path,
      schema := some env.schema }

/-- One call has been made for the field at its path, the call of this resolver with the value of the
object; and one value has settled there, the one that the resolver gives for the arguments of the
node. -/
structure CalledOnce (env : Environment) (frame : ObjectFrame) (node : FieldNode)
    (definition : FieldDef) (type : TypeRef) (resolver : Resolver) (source : ResolverSource)
    (events : List Event) : Prop where
  called : events.filter (fun event => event.called? = some (frame.path.key node.responseKey)) =
    [.called (frame.path.key node.responseKey) frame.type.name node.name frame.value resolver source]
  settled : events.filter (fun event =>
      event.settled? = some ⟨frame.path.key node.responseKey, false⟩) =
    [.settled (frame.path.key node.responseKey) false
      (resolver.reply env frame node definition type).resolution.settled]

/-- The field is found by the name in the node, and its resolver has been called once. -/
def FieldCalled (env : Environment) (frame : ObjectFrame) (node : FieldNode) (events : List Event) :
    Prop :=
  ∃ found type, env.schema.field? frame.type node.name = some found ∧
    env.schema.resolve env.context found.definition.type = .ok type ∧
    ∀ definition resolver source, found = .ordinary definition →
      env.registry.resolver? frame.type.name node.name = some (resolver, source) →
        CalledOnce env frame node definition type resolver source events

/-- Every response key of the selections has been called for by its first node. -/
def FieldsCalled (env : Environment) (frame : ObjectFrame) (selections : List Selection)
    (events : List Event) : Prop :=
  ∃ nodes followed,
    Gathering.flatten env.schema env.document env.context frame.type [] selections =
      .ok (nodes, followed) ∧
    ∀ key node, nodes.find? (fun node => node.responseKey = key) = some node →
      FieldCalled env frame node events

theorem filter_of_nodup_filterMap {α : Type} [DecidableEq α] {read : Event → Option α} {value : α}
    {events : List Event} {event : Event} (hn : (events.filterMap read).Nodup)
    (he : event ∈ events) (hr : read event = some value) :
    events.filter (fun event => read event = some value) = [event] := by
  induction events with
  | nil => cases he
  | cons first rest ih =>
    by_cases hf : read first = some value
    · rw [List.filterMap_cons_some hf, List.nodup_cons] at hn
      have hrest : ∀ other ∈ rest, read other ≠ some value := fun other ho hv =>
        hn.1 (List.mem_filterMap.mpr ⟨other, ho, hv⟩)
      have hsame : event = first := by
        rcases List.mem_cons.mp he with rfl | he
        · rfl
        · exact absurd hr (hrest event he)
      rw [List.filter_cons_of_pos (by simpa using hf), hsame,
        List.filter_eq_nil_iff.mpr fun other ho => by simpa using hrest other ho]
    · have hn' : (rest.filterMap read).Nodup :=
        hn.sublist ((List.sublist_cons_self first rest).filterMap read)
      have he' : event ∈ rest := by
        rcases List.mem_cons.mp he with rfl | he
        · exact absurd hr hf
        · exact he
      rw [List.filter_cons_of_neg (by simpa using hf), ih hn' he']

namespace Machine

variable {env : Environment} {machine first last : Machine} {steps : Nat}
variable {frame : ObjectFrame} {group : FieldGroup} {selections : List Selection}

/-- At some moment of the run the selections are to be executed on the object. -/
def Executes (env : Environment) (first last : Machine) (frame : ObjectFrame)
    (selections : List Selection) : Prop :=
  ∃ before after machine serial, Run env before first machine ∧ Run env after machine last ∧
    .select frame selections serial ∈ Strand.works machine.task.strands

/-- A field that has been attended to is called once, if it is an ordinary one. -/
theorem called_of_attended (ht : last.Tracked env) (hn : Strand.works last.task.strands = [])
    (h : Attended env frame group last.state.events (Strand.works last.task.strands))
    (hk : group.key = group.node.responseKey) : FieldCalled env frame group.node last.state.events := by
  cases h with
  | intended hm =>
    rw [hn] at hm
    cases hm
  | @prepared found type hl hnoted hsettles =>
    obtain ⟨hfound, htype⟩ := lookup_ok hl
    refine ⟨found, type, hfound, htype, ?_⟩
    rintro definition resolver source rfl hresolver
    have hanswer : (answer env frame group (.ordinary definition) type).1 =
        resolver.reply env frame group.node definition type := by
      simp only [answer, hresolver, Resolver.reply, arguments, hk]
      rfl
    have hcalled : .note (.called (frame.path.key group.key) frame.type.name group.node.name
        frame.value resolver source) ∈
          Work.fieldDeeds env frame group (.ordinary definition) type := by
      simp [Work.fieldDeeds, hresolver]
    have hsettled : .settled (frame.path.key group.key) false
        (answer env frame group (.ordinary definition) type).1.resolution.settled ∈
          last.state.events := by
      refine hsettles.resolve_left ?_
      rintro ⟨piece, hm, -⟩
      rw [hn] at hm
      cases hm
    rw [hanswer] at hsettled
    rw [hk] at hcalled hsettled
    exact ⟨filter_of_nodup_filterMap ht.chronicled.recorded.disciplined.called
        (hnoted _ hcalled) rfl,
      filter_of_nodup_filterMap (ht.once .settlement).nodup hsettled rfl⟩

end Machine

namespace Executor

/-- In a run that ends well, the response keys of each object on which selections are executed are
called for once. -/
def CallsOnce (executor : Executor) (schema : Schema) (request : Request) : Prop :=
  ∀ {env : Environment} {machine last : Machine} {steps : Nat} {execution : Execution},
    executor.start schema request = .ok (env, machine) → Machine.Run env steps machine last →
      last.result? = some (.ok execution) → ∀ frame selections,
        Machine.Executes env machine last frame selections →
          FieldsCalled env frame selections (execution.history.map Prod.snd)

theorem calls_once {executor : Executor} (schema : Schema) (request : Request)
    (hp : executor.config.pruneCollapsedSubtrees = false) : executor.CallsOnce schema request := by
  intro env machine last steps execution hs hr he frame selections hexecutes
  obtain ⟨hdone, hexecution⟩ := Machine.execution_of_result he
  have hconfig : env.config.pruneCollapsedSubtrees = false := by
    obtain ⟨operation, rootType, rfl, -⟩ := start_ok hs
    exact hp
  have hsound : Sound last.task.strands := by
    rw [hdone]
    exact fun raised hm => nomatch hm
  have hnone : Strand.works last.task.strands = [] := by rw [hdone]; rfl
  have htracked : last.Tracked env := (hr.preserves_tracked (P := fun _ => True)
    (fun _ _ _ => trivial) (fun _ _ => trivial) (tracked_start hs) trivial).2
  have hevents : execution.history.map Prod.snd = last.state.events := by
    rw [hexecution]
    rfl
  obtain ⟨before, after, middle, serial, -, hafter, hselect⟩ := hexecutes
  obtain ⟨groups, hgroups⟩ := hafter.gathers hconfig hsound hnone hselect
  obtain ⟨⟨nodes, followed⟩, hnodes, rfl⟩ :
      ∃ reached, Gathering.flatten env.schema env.document env.context frame.type [] selections =
        .ok reached ∧ FieldGroup.addAll reached.1 [] = groups := by
    have hflatten := hgroups
    rw [Gathering.collect_eq_flatten] at hflatten
    cases hf : Gathering.flatten env.schema env.document env.context frame.type [] selections with
    | error raised =>
      rw [hf] at hflatten
      cases hflatten
    | ok reached =>
      rw [hf] at hflatten
      exact ⟨reached, rfl, Except.ok.inj hflatten⟩
  refine ⟨nodes, followed, hnodes, fun key node hnode => ?_⟩
  obtain ⟨group, hm, rfl, rfl⟩ := FieldGroup.exists_group hnode
  have hkey : group.node.responseKey = group.key := by simpa using List.find?_some hnode
  rw [hevents]
  refine Machine.called_of_attended htracked hnone (hafter.attends hconfig hsound ?_)
    hkey.symm
  exact .intended hselect ⟨rfl, _, hm, hgroups⟩

end Executor

end GraphQL
