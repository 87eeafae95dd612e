import GraphQL.Proofs.Halting

/-!
# Plain steps

Steps that hand no error to a collector and route no error that says of itself where it belongs. A
run is made of them if its registry is quiet; in general it depends on the run what resolvers are
called and what they do, so the condition is one on the steps of a run.
-/

namespace GraphQL

open Strand

/-- No error of the value says where it belongs. -/
def FieldValue.Unplaced : FieldValue → Prop
  | .error raised => raised.path = none
  | .errors raised => ∀ error ∈ raised, error.path = none
  | _ => True

namespace Work

/-- The errors that the resolver of a field hands to its collector. -/
def pushedBy (env : Environment) (frame : ObjectFrame) (group : FieldGroup) :
    List ResponseError :=
  match Reference.lookup env frame group with
  | .error _ => []
  | .ok (found, type) =>
    Reference.collected (Reference.arguments env frame group found).collector
      (Reference.answer env frame group found type).1.reports

/-- The errors that a step hands to a collector. -/
def pushed (env : Environment) : Work → List ResponseError
  | prepare frame .call (group :: _) _ => pushedBy env frame group
  | field frame .call group => pushedBy env frame group
  | await site purpose .started (.report errors :: _) _ =>
    Reference.collected (if purpose.isAuthorizing then none else site.field.collector) errors
  | _ => []

/-- True of a step that hands no error to a collector and routes no error that says where it
belongs. -/
structure Plain (env : Environment) (piece : Work) : Prop where
  pushed : piece.pushed env = []
  unplaced : ∀ site purpose value, piece = .resume site purpose value → value.Unplaced

end Work

namespace Machine

/-- The runs of a machine in which every step of work has a property. -/
inductive RunBy (env : Environment) (P : Work → Prop) : Machine → Machine → Prop where
  | refl (machine : Machine) : RunBy env P machine machine
  | advance {machine next last : Machine} {address : Address} {piece : Work}
      (there : machine.task.work? address = some piece) (holds : P piece)
      (move : machine.perform? env (.advance address) = some next)
      (rest : RunBy env P next last) : RunBy env P machine last
  | pass {machine next last : Machine} (move : machine.perform? env .pass = some next)
      (rest : RunBy env P next last) : RunBy env P machine last

variable {env : Environment} {P : Work → Prop} {machine next first last : Machine}

theorem RunBy.run (h : RunBy env P first last) : ∃ steps, Run env steps first last := by
  induction h with
  | refl machine => exact ⟨0, .refl machine⟩
  | advance _ _ move _ ih =>
    obtain ⟨steps, hr⟩ := ih
    exact ⟨steps + 1, .advance move hr⟩
  | pass move _ ih =>
    obtain ⟨steps, hr⟩ := ih
    exact ⟨steps, .pass move hr⟩

/-- A step of work in full, for the piece at the address of the move. -/
theorem advance_at {address : Address} {piece : Work}
    (there : machine.task.work? address = some piece)
    (h : machine.perform? env (.advance address) = some next) :
    ∃ left right deeds outcome,
      machine.task.strands = left ++ .ok piece :: right ∧
      Strand.Trims (left ++ outcome.strands ++ right) next.task.strands ∧
      next.state = machine.state.performAll deeds ∧
      (Work.Step env machine.state piece deeds outcome ∨
        Work.Prunes env machine.state piece deeds outcome) := by
  obtain ⟨other, hm, _, ht, hstate⟩ := advance_eq h
  obtain rfl := Task.frontier_unique hm (Task.work?_eq_some.mp there)
  obtain ⟨left, right, hs, htrim⟩ := Task.strands_replace hm
  obtain ⟨deeds, hd, hk⟩ := Work.step_account env machine.state other
  refine ⟨left, right, deeds, _, hs, ?_, hstate.trans hd, hk⟩
  rw [ht]
  exact htrim _

end Machine

mutual

/-- Values in which no error says where it belongs and nothing is reported before they settle. -/
inductive FieldValue.Quiet : FieldValue → Prop where
  | value (data : Json) : FieldValue.Quiet (.value data)
  | list {items : List Resolution} (each : ∀ item ∈ items, Resolution.Quiet item) :
      FieldValue.Quiet (.list items)
  | error {raised : ResponseError} (unplaced : raised.path = none) : FieldValue.Quiet (.error raised)
  | errors {raised : List ResponseError} (unplaced : ∀ error ∈ raised, error.path = none) :
      FieldValue.Quiet (.errors raised)
  | skip : FieldValue.Quiet .skip

inductive Resolution.Quiet : Resolution → Prop where
  | ready {value : FieldValue} (settled : FieldValue.Quiet value) : Resolution.Quiet (.ready value)
  | deferred {stages : List Stage} {value : FieldValue}
      (silent : ∀ stage ∈ stages, stage.reports = []) (settled : FieldValue.Quiet value) :
      Resolution.Quiet (.deferred stages value)

end

theorem FieldValue.Quiet.unplaced {value : FieldValue} (h : value.Quiet) : value.Unplaced := by
  cases h with
  | value | list | skip => trivial
  | error unplaced => exact unplaced
  | errors unplaced => exact unplaced

/-- The resolvers and authorizers of a registry hand nothing to a collector and leave it open where
their errors belong. -/
structure Registry.Quiet (registry : Registry) : Prop where
  resolvers : ∀ typeName fieldName resolver source,
    registry.resolver? typeName fieldName = some (resolver, source) →
      ∀ parent args context info, (resolver.resolve parent args context info).reports = [] ∧
        (resolver.resolve parent args context info).resolution.Quiet
  authorizers : ∀ type value context, (registry.authorize type value context).Quiet

/-- A registry with nothing but resolvers is quiet if each of them is. -/
theorem Registry.quiet_of_resolvers {resolvers : Members Resolver}
    (h : ∀ entry ∈ resolvers, ∀ parent args context info,
      (entry.2.resolve parent args context info).reports = [] ∧
        (entry.2.resolve parent args context info).resolution.Quiet) :
    ({ resolvers } : Registry).Quiet where
  resolvers typeName fieldName resolver source hr := by
    cases hf : Members.get? (fieldKey typeName fieldName) resolvers with
    | none => simp [resolver?, hf] at hr
    | some found =>
      obtain ⟨before, after, heq, -⟩ := Members.get?_eq_some hf
      obtain ⟨rfl, -⟩ : found = resolver ∧ _ := by simpa [resolver?, hf] using hr
      exact h (fieldKey typeName fieldName, found) (by rw [heq]; simp)
  authorizers type value context := .ready (.value value)

theorem Introspection.quiet_answer (schema : Schema) (context : Context) (enabled : Bool)
    (objectType : TypeDef) (args : ResolverArgs) (field : MetaField) :
    (answer schema context enabled objectType args field).Quiet := by
  cases field with
  | typename => exact .value _
  | schema =>
    simp only [answer]
    split
    · exact .value _
    · exact .error (by rfl)
  | type =>
    simp only [answer]
    split
    · exact .value _
    · exact .error (by rfl)

def Content.Quiet : Content → Prop
  | value _ => True
  | items resolutions => ∀ item ∈ resolutions, item.Quiet

theorem Site.quiet_route {site : Site} {value : FieldValue} {content : Content} (h : value.Quiet)
    (hr : site.route value = .content content) : content.Quiet := by
  cases h with
  | value data =>
    cases data with
    | null => cases hr
    | bool | int | float | str | arr | obj =>
      obtain rfl := Routed.content.inj hr
      trivial
  | list each =>
    obtain rfl := Routed.content.inj hr
    exact each
  | error unplaced => cases hr
  | @errors raised unplaced =>
    cases raised with
    | nil =>
      obtain rfl := Routed.content.inj hr
      trivial
    | cons first rest => cases hr
  | skip => cases hr

namespace Shaped

variable {env : Environment} {site : Site}

/-- The elements of a list are among the values that were given for it. -/
theorem quiet_of_list {content : Content} {type itemType : TypeRef} {items : List Resolution}
    (hq : content.Quiet) (h : of env site content type = .list itemType items) :
    ∀ item ∈ items, item.Quiet := by
  induction type with
  | nonNull inner ih => exact ih h
  | resolved definition => exact absurd h (ofNamed_ne_list env site content definition _ _)
  | late name =>
    simp only [of] at h
    split at h
    · exact absurd h (ofNamed_ne_list env site content _ _ _)
    · cases h
  | list item _ =>
    simp only [of] at h
    split at h
    · cases h
    · next values hv =>
      obtain ⟨-, rfl⟩ := list.inj h
      cases content with
      | items own =>
        obtain rfl := Option.some.inj hv
        exact hq
      | value value =>
        cases value with
        | arr elements =>
          obtain rfl := Option.some.inj hv
          intro element he
          obtain ⟨data, -, rfl⟩ := List.mem_map.mp he
          exact .ready (.value data)
        | null | bool | int | float | str | obj => cases hv

end Shaped

namespace Work

/-- What is carried by the work is quiet. -/
def Quiet : Work → Prop
  | select _ _ _ => True
  | prepare _ _ _ prepared => ∀ entry ∈ prepared, entry.2.Quiet
  | field _ _ _ => True
  | settle _ _ resolution => resolution.Quiet
  | await _ _ _ stages value => (∀ stage ∈ stages, stage.reports = []) ∧ value.Quiet
  | resume _ _ value => value.Quiet
  | complete _ content => content.Quiet

variable {env : Environment} {state : State} {piece : Work} {deeds : List Deed} {outcome : Task}

theorem quiet_answer (hq : env.registry.Quiet) (frame : ObjectFrame) (group : FieldGroup)
    (found : FieldLookup) (type : TypeRef) :
    (Reference.answer env frame group found type).1.reports = [] ∧
      (Reference.answer env frame group found type).1.resolution.Quiet := by
  unfold Reference.answer
  cases found with
  | introspection field => exact ⟨rfl, .ready (Introspection.quiet_answer _ _ _ _ _ _)⟩
  | ordinary definition =>
    dsimp only
    cases hr : env.registry.resolver? frame.type.name group.node.name with
    | none => exact ⟨rfl, .ready (.value _)⟩
    | some entry => exact hq.resolvers _ _ entry.1 entry.2 hr _ _ _ _

/-- What a step leaves to do is quiet. -/
theorem Step.quiet (h : Step env state piece deeds outcome) (hr : env.registry.Quiet)
    (hq : piece.Quiet) : ∀ left ∈ works outcome.strands, left.Quiet := by
  cases h with
  | gatherFault | prepareFault | fieldFault | skip | null | refuse => exact fun _ hl => nomatch hl
  | gather => exact forall_works_gathered (fun _ he => nomatch he) fun _ _ => trivial
  | prepared => exact forall_works_prepared hq
  | @prepare frame group rest prepared found type hl =>
    refine forall_works_work fun entry he => ?_
    rcases List.mem_append.mp he with he | he
    · exact hq entry he
    · obtain rfl := List.mem_singleton.mp he
      exact (quiet_answer hr frame group found type).2
  | @field frame group found type hl =>
    exact forall_works_work (quiet_answer hr frame group found type).2
  | ready =>
    cases hq with
    | ready settled => exact forall_works_work settled
  | queue =>
    cases hq with
    | deferred silent settled => exact forall_works_work ⟨silent, settled⟩
  | prepareDeclare | prepareAdmit | start | wake => exact forall_works_work hq
  | settle => exact forall_works_work hq.2
  | sleep | report =>
    exact forall_works_work ⟨fun stage hs => hq.1 stage (List.mem_cons_of_mem _ hs), hq.2⟩
  | content hroute => exact forall_works_work (Site.quiet_route hq hroute)
  | fieldDeclare | fieldAdmit | enter => exact forall_works_work trivial
  | complete =>
    exact forall_works_shaped (fun itemType items hs place resolution hitem =>
      Shaped.quiet_of_list hq hs resolution (List.mem_of_getElem? hitem))
      fun type value _ => hr.authorizers type value env.context

theorem Prunes.quiet (h : Prunes env state piece deeds outcome) (hq : piece.Quiet) :
    ∀ left ∈ works outcome.strands, left.Quiet := by
  cases h with
  | prepare => exact forall_works_work hq
  | field => exact fun _ hl => nomatch hl

/-- Quiet work takes plain steps. -/
theorem Quiet.plain (hr : env.registry.Quiet) (hq : piece.Quiet) : piece.Plain env where
  pushed := by
    have hfield : ∀ frame group, pushedBy env frame group = [] := by
      intro frame group
      unfold pushedBy
      split
      · rfl
      · next found type _ =>
        rw [(quiet_answer hr frame group found type).1, Reference.collected_nil]
    unfold pushed
    split
    · exact hfield _ _
    · exact hfield _ _
    · next errors _ _ =>
      have herrors : errors = [] := hq.1 _ List.mem_cons_self
      rw [herrors, Reference.collected_nil]
    · rfl
  unplaced site purpose value he := by
    subst he
    exact FieldValue.Quiet.unplaced hq

end Work

namespace Machine

variable {env : Environment}

/-- All runs by a quiet registry consist of plain steps. -/
theorem Run.plain {steps : Nat} {first last : Machine} (h : Run env steps first last)
    (hr : env.registry.Quiet) (hq : ∀ piece ∈ Strand.works first.task.strands, piece.Quiet) :
    RunBy env (Work.Plain env) first last := by
  induction h with
  | refl machine => exact .refl machine
  | @advance machine next last address steps move _ ih =>
    obtain ⟨piece, hm, -, -, -⟩ := advance_eq move
    have hthere := Task.work?_eq_some.mpr hm
    obtain ⟨left, right, deeds, outcome, hs, ht, -, hstep⟩ := advance_at hthere move
    rw [hs] at hq
    have hpiece : piece.Quiet := hq piece (by simp)
    have hleft : ∀ other ∈ Strand.works outcome.strands, other.Quiet := by
      rcases hstep with hstep | hstep
      · exact hstep.quiet hr hpiece
      · exact hstep.quiet hpiece
    exact .advance hthere (Work.Quiet.plain hr hpiece) move (ih (ht.forall_works hq hleft))
  | pass move _ ih =>
    obtain ⟨wake, -, rfl⟩ := pass_eq move
    exact .pass move (ih hq)

end Machine

end GraphQL
