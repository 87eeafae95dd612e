import GraphQL.Proofs.Issues
import GraphQL.Proofs.Veils
import Mathlib.Data.List.Pairwise

/-!
# Authorization

Below the root no object is entered by itself. Its raw value is passed to the authorizer of its
runtime type, and what the authorizer settles with is the parent of its fields; if that is no value,
nothing is called inside of the object. This is kept by every step: work on an object carries the
value that its authorization has settled with, and work on a refused object only ends it.
-/

namespace GraphQL

open Reference

/-- The one value that a settled value comes to: there is none if it is null, an error, skipped or a
list of separately settling elements. An empty list of errors is an empty list. -/
def FieldValue.datum? : FieldValue → Option Json
  | .value .null => none
  | .value raw => some raw
  | .errors [] => some (.arr [])
  | _ => none

theorem Site.route_eq_value {site : Site} {value : FieldValue} {exposed : Json} :
    site.route value = .content (.value exposed) ↔ value.datum? = some exposed := by
  cases value with
  | value raw => cases raw <;> simp [Site.route, FieldValue.datum?]
  | errors errors => cases errors <;> simp [Site.route, FieldValue.datum?, eq_comm]
  | list | error | skip => simp [Site.route, FieldValue.datum?]

/-- What is noted when a raw object is passed to the authorizer of its type; nothing if there is
none, as the object is then exposed as it is. -/
def Environment.asks (env : Environment) (path : Path) (type : ObjectDef) (raw : Json) :
    List Event :=
  match env.registry.authorizer? type.name with
  | some _ => [.authorized path type.name raw]
  | none => []

/-- The raw value of an object settled, it was passed to the authorization of a type, which comes to
this value, and then the later events happened. -/
def Submitted (env : Environment) (past : List Event) (path : Path) (type : ObjectDef)
    (value : FieldValue) (later : List Event) : Prop :=
  ∃ given raw, given.datum? = some raw ∧
    (env.registry.authorize type raw env.context).settled = value ∧
      (.settled path false given :: (env.asks path type raw ++ later)).Sublist past

/-- An object was passed to the authorization of a type, which then settled and exposed it as this
value. -/
def Admits (env : Environment) (past : List Event) (path : Path) (type : ObjectDef)
    (exposed : Json) : Prop :=
  ∃ value, Submitted env past path type value [.settled path true value] ∧
    value.datum? = some exposed

section Past

variable {env : Environment} {past : List Event} {path : Path} {type : ObjectDef}
variable {value : FieldValue} {later : List Event} {exposed : Json}

theorem Submitted.append (h : Submitted env past path type value later) (more : List Event) :
    Submitted env (past ++ more) path type value later := by
  obtain ⟨given, raw, hg, hv, hs⟩ := h
  exact ⟨given, raw, hg, hv, hs.trans (List.sublist_append_left past more)⟩

/-- The authorization settles. -/
theorem Submitted.settle (h : Submitted env past path type value []) :
    Submitted env (past ++ [.settled path true value]) path type value
      [.settled path true value] := by
  obtain ⟨given, raw, hg, hv, hs⟩ := h
  rw [List.append_nil] at hs
  exact ⟨given, raw, hg, hv, hs.append (.refl [Event.settled path true value])⟩

theorem Admits.append (h : Admits env past path type exposed) (more : List Event) :
    Admits env (past ++ more) path type exposed := by
  obtain ⟨value, hs, he⟩ := h
  exact ⟨value, hs.append more, he⟩

theorem Admits.settled (h : Admits env past path type exposed) :
    ∃ value, .settled path true value ∈ past ∧ value.datum? = some exposed := by
  obtain ⟨value, ⟨given, raw, -, -, hs⟩, he⟩ := h
  refine ⟨value, hs.mem (List.mem_cons_of_mem _ ?_), he⟩
  exact List.mem_append_right _ (List.mem_singleton_self _)

end Past

/-- An object below the root is executed as the value that its authorization has exposed. -/
def ObjectFrame.Admitted (env : Environment) (past : List Event) (frame : ObjectFrame) : Prop :=
  frame.path ≠ [] →
    ∃ type, frame.type = .object type ∧ Admits env past frame.path type frame.value

namespace Work

/-- What has happened for the work: the object on which it is done was admitted, a value that is
routed or completed has settled, and one of an authorization comes from the authorizer. -/
def Authorized (env : Environment) (past : List Event) : Work → Prop
  | select frame _ _ => frame.Admitted env past
  | prepare frame _ _ _ => frame.Admitted env past
  | field frame _ _ => frame.Admitted env past
  | settle site (.enter type) resolution =>
    Submitted env past site.path type resolution.settled []
  | await site (.enter type) _ _ value => Submitted env past site.path type value []
  | resume site .complete value => .settled site.path false value ∈ past
  | resume site (.enter type) value =>
    Submitted env past site.path type value [.settled site.path true value]
  | complete site content => ∃ given, .settled site.path false given ∈ past ∧
      site.route given = .content content
  | _ => True

end Work

/-- What holds of an event by the events before it: resolvers are called for the fields of admitted
objects, and objects that are written have been admitted. -/
def Event.Authorized (env : Environment) (past : List Event) : Event → Prop
  | called path parentType _ parent _ _ => ∀ top segment, path = top ++ [segment] → top ≠ [] →
    ∃ type, type.name = parentType ∧ Admits env past top type parent
  | wrote path (.object _) _ _ => path ≠ [] → ∃ type exposed, Admits env past path type exposed
  | _ => True

section Past

variable {env : Environment} {past : List Event} {frame : ObjectFrame} {piece : Work}

theorem ObjectFrame.Admitted.append (h : frame.Admitted env past) (more : List Event) :
    frame.Admitted env (past ++ more) := fun hn => by
  obtain ⟨type, ht, ha⟩ := h hn
  exact ⟨type, ht, ha.append more⟩

theorem Work.Authorized.append (h : piece.Authorized env past) (more : List Event) :
    piece.Authorized env (past ++ more) := by
  cases piece with
  | select | prepare | field => exact ObjectFrame.Admitted.append h more
  | settle site purpose | await site purpose =>
    cases purpose with
    | complete => trivial
    | enter type => exact Submitted.append h more
  | resume site purpose =>
    cases purpose with
    | complete => exact List.mem_append_left _ h
    | enter type => exact Submitted.append h more
  | complete =>
    obtain ⟨given, hs, hr⟩ := h
    exact ⟨given, List.mem_append_left _ hs, hr⟩

theorem Event.Authorized.append {event : Event} (h : event.Authorized env past) (more : List Event) :
    event.Authorized env (past ++ more) := by
  cases event with
  | called path parentType fieldName parent resolver source =>
    intro top segment hp hn
    obtain ⟨type, ht, ha⟩ := h top segment hp hn
    exact ⟨type, ht, ha.append more⟩
  | wrote path entry propagating landed =>
    cases entry with
    | object keys =>
      intro hn
      obtain ⟨type, exposed, ha⟩ := h hn
      exact ⟨type, exposed, ha.append more⟩
    | _ => trivial
  | _ => trivial

/-- Each event follows from those before it. -/
def AuthorizedAll (env : Environment) (events : List Event) : Prop :=
  ∀ past event later, events = past ++ event :: later → event.Authorized env past

theorem AuthorizedAll.append (h : AuthorizedAll env past) {more : List Event}
    (hm : ∀ event ∈ more, event.Authorized env past) : AuthorizedAll env (past ++ more) := by
  intro before event later he
  rcases List.append_eq_append_iff.mp he with ⟨middle, rfl, hmore⟩ | ⟨middle, rfl, hlater⟩
  · exact (hm event (hmore ▸ List.mem_append_right _ List.mem_cons_self)).append middle
  · cases middle with
    | nil =>
      rw [List.append_nil] at hm
      rw [List.nil_append] at hlater
      exact hm event (hlater ▸ List.mem_cons_self)
    | cons first rest =>
      obtain ⟨rfl, -⟩ := List.cons.inj hlater
      exact h before event rest rfl

end Past

namespace Work

open Strand

variable {env : Environment} {state : State} {piece : Work} {deeds : List Deed} {outcome : Task}

/-- A value with the shape of an object is given as one value. -/
theorem content_of_object {site : Site} {content : Content} {declared : TypeRef}
    {type : ObjectDef} {raw : Json} (h : Shaped.of env site content declared = .object type raw) :
    content = .value raw := by
  have hnamed : ∀ definition, Shaped.ofNamed env site content definition = .object type raw →
      content = .value raw := by
    intro definition hn
    rcases Shaped.ofNamed_cases env site content definition with
      ⟨_, he⟩ | ⟨_, he⟩ | ⟨_, he⟩ | ⟨_, value, hv, -, he⟩ <;> rw [he] at hn
    · cases hn
    · cases hn
    · cases hn
    · rw [hv, (Shaped.object.inj hn).2]
  induction declared with
  | nonNull inner ih => exact ih h
  | list item _ =>
    rw [Shaped.of] at h
    split at h <;> cases h
  | resolved definition => exact hnamed definition h
  | late name =>
    rw [Shaped.of] at h
    split at h
    · exact hnamed _ h
    · cases h

theorem events_asked (site : Site) (type : ObjectDef) (value : Json) :
    (state.performAll ((Shaped.object type value).deeds env site)).events =
      state.events ++ env.asks site.path type value := by
  rw [Shaped.deeds, Shaped.asked, Environment.asks]
  cases env.registry.authorizer? type.name <;> simp

/-- A step leaves work for which the right things have happened. -/
theorem Step.authorized (h : Step env state piece deeds outcome)
    (ha : piece.Authorized env state.events) :
    ∀ left ∈ works outcome.strands, left.Authorized env (state.performAll deeds).events := by
  obtain ⟨more, hmore⟩ := state.events_performAll deeds
  cases h with
  | gatherFault | prepareFault | fieldFault | skip | null | refuse => exact fun _ hl => nomatch hl
  | @gather frame selections serial groups hg =>
    have hframe : frame.Admitted env state.events := ha
    exact forall_works_gathered (hmore ▸ hframe.append more) fun _ _ => hmore ▸ hframe.append more
  | prepared => exact forall_works_prepared fun _ _ => trivial
  | @prepareDeclare frame | @prepareAdmit frame | @prepare frame | @fieldDeclare frame
  | @fieldAdmit frame =>
    have hframe : frame.Admitted env state.events := ha
    exact forall_works_work (hmore ▸ hframe.append more)
  | field => exact forall_works_work trivial
  | @content site value content hr => exact forall_works_work ⟨value, ha, hr⟩
  | @ready site purpose value | @settle site purpose value =>
    refine forall_works_work ?_
    cases purpose with
    | complete =>
      refine (State.events_note state _).symm ▸ List.mem_append_right _ ?_
      exact List.mem_singleton_self _
    | enter type =>
      have hsubmitted : Submitted env state.events site.path type value [] := ha
      have hsettled := hsubmitted.settle
      rw [← State.events_note] at hsettled
      exact hsettled
  | @queue site purpose | @start site purpose | @wake site purpose | @sleep site purpose
  | @report site purpose =>
    refine forall_works_work ?_
    cases purpose with
    | complete => trivial
    | enter type => exact hmore ▸ Submitted.append ha more
  | @enter site type value exposed hr =>
    exact forall_works_work fun _ => ⟨type, rfl, value, ha, Site.route_eq_value.mp hr⟩
  | @complete site content =>
    refine forall_works_shaped (fun _ _ _ _ _ _ => trivial) fun type value hs => ?_
    obtain ⟨given, hgiven, hroute⟩ := ha
    rw [content_of_object hs] at hroute
    refine ⟨given, value, Site.route_eq_value.mp hroute, rfl, ?_⟩
    rw [hs, events_asked, List.append_nil]
    exact (List.singleton_sublist.mpr hgiven).append (.refl _)

theorem Prunes.authorized (h : Prunes env state piece deeds outcome)
    (ha : piece.Authorized env state.events) :
    ∀ left ∈ works outcome.strands, left.Authorized env (state.performAll deeds).events := by
  obtain ⟨more, hmore⟩ := state.events_performAll deeds
  cases h with
  | @prepare frame group rest prepared hp hd =>
    have hframe : frame.Admitted env state.events := ha
    exact forall_works_work (hmore ▸ hframe.append more)
  | field => exact fun _ hl => nomatch hl

theorem Authorized.frame {past : List Event} {frame : ObjectFrame}
    (h : piece.Authorized env past) (hf : piece.frame? = some frame) : frame.Admitted env past := by
  cases piece with
  | select | prepare | field => exact Option.some.inj hf ▸ h
  | settle | await | resume | complete => cases hf

/-- What work notes follows from what has happened. -/
theorem Note.authorized_event {past : List Event} {event : Event} (h : piece.Note env outcome event)
    (ha : piece.Authorized env past) : event.Authorized env past := by
  cases h with
  | @called frame key hf =>
    intro top segment hp hn
    obtain ⟨rfl, -⟩ := List.append_inj' hp rfl
    obtain ⟨type, ht, hadmits⟩ := ha.frame hf hn
    exact ⟨type, by rw [ht]; rfl, hadmits⟩
  | object hf =>
    intro hn
    obtain ⟨type, -, hadmits⟩ := ha.frame hf hn
    exact ⟨type, _, hadmits⟩
  | @value site hs entry he =>
    cases entry with
    | object keys => exact absurd rfl (he keys)
    | _ => trivial
  | _ => trivial

/-- The work that is left where an object was refused: its place is to be ended. -/
def IsRefused : Work → Prop
  | resume _ (.enter _) value => value.datum? = none
  | _ => False

/-- Where an object was refused, its place ends. -/
theorem Step.of_refused (h : Step env state piece deeds outcome) (hr : piece.IsRefused) :
    works outcome.strands = [] := by
  cases h with
  | skip | null | refuse => rfl
  | enter hroute =>
    have hnone := Site.route_eq_value.mp hroute
    rw [IsRefused] at hr
    rw [hr] at hnone
    cases hnone
  | _ => exact hr.elim

/-- Where an authorization settles that exposes no value, a refusal is left. -/
theorem Note.refusal {path : Path} {value : FieldValue}
    (h : piece.Note env outcome (.settled path true value)) (hn : value.datum? = none) :
    path ∈ piece.begun ∧ ∀ left ∈ works outcome.strands, left.IsRefused := by
  generalize hevent : Event.settled path true value = event at h
  cases h with
  | @settled site purpose other hs ho =>
    obtain ⟨rfl, hpurpose, rfl⟩ := Event.settled.inj hevent
    refine ⟨begun_of_site hs, fun left hl => ?_⟩
    rw [ho] at hl
    obtain rfl := List.mem_singleton.mp hl
    cases purpose with
    | complete => cases hpurpose
    | enter type => exact hn
  | _ => cases hevent

end Work

/-- Nothing has been called inside of a place, and only the work of a refusal is left there. -/
structure Barred (events : List Event) (pieces : List Work) (path : Path) : Prop where
  uncalled : ∀ event ∈ events, ∀ place, event.called? = some place → path <+: place → place = path
  left : ∀ piece ∈ pieces, ∀ place ∈ piece.owned, path <+: place → piece.IsRefused

namespace Barred

variable {state : State} {piece : Work} {left right pieces : List Work} {path : Path}

theorem sublist {events : List Event} (h : Barred events pieces path) {part : List Work}
    (hs : part.Sublist pieces) : Barred events part path :=
  ⟨h.uncalled, fun piece hm => h.left piece (hs.mem hm)⟩

/-- Work comes no nearer to a place that is barred. -/
theorem replace (h : Barred state.events (left ++ piece :: right) path)
    (hd : Declares state.events path) (hk : Chronicled state (left ++ piece :: right))
    (hb : ∀ place ∈ pieces.flatMap Work.owned, ∃ top ∈ piece.owned, top <+: place)
    (hr : piece.IsRefused → pieces = []) {more : List Event}
    (hc : ∀ event ∈ more, ∀ place, event.called? = some place → place ∈ piece.uncalled) :
    Barred (state.events ++ more) (left ++ pieces ++ right) path := by
  have hpiece : piece ∈ left ++ piece :: right := List.mem_append_right _ List.mem_cons_self
  obtain ⟨type, hdeclared⟩ := hd
  -- work that owns a place above would have seen that what is inside of it has begun
  have habove : ∀ top ∈ piece.owned, top <+: path → path <+: top := by
    intro top ht hp
    rw [Work.owned_eq] at ht
    rcases List.mem_append.mp ht with ht | ht
    · have hsame := (hk.begun piece hpiece top ht).inside _ hdeclared path (.inl rfl) hp
      exact hsame ▸ List.prefix_refl _
    · exact absurd hp ((hk.fresh piece hpiece top ht).untouched _ hdeclared path (.inl rfl))
  refine ⟨fun event he place hcalled hp => ?_, fun other ho place hplace hp => ?_⟩
  · rcases List.mem_append.mp he with he | he
    · exact h.uncalled event he place hcalled hp
    · have huncalled := hc event he place hcalled
      have hrefused := h.left piece hpiece place (piece.uncalled_subset_owned huncalled) hp
      cases piece with
      | resume => cases huncalled
      | _ => exact hrefused.elim
  · rcases List.mem_append.mp ho with ho | ho
    · rcases List.mem_append.mp ho with ho | ho
      · exact h.left other (List.mem_append_left _ ho) place hplace hp
      · obtain ⟨top, ht, htop⟩ := hb place (List.mem_flatMap.mpr ⟨other, ho, hplace⟩)
        have hwithin : path <+: top :=
          (List.prefix_or_prefix_of_prefix hp htop).elim id (habove top ht)
        have hnone := hr (h.left piece hpiece top ht hwithin)
        rw [hnone] at ho
        cases ho
    · exact h.left other (List.mem_append_right _ (List.mem_cons_of_mem _ ho)) place hplace hp

/-- A place is barred when its object is refused. -/
theorem of_refusal (hc : Coherent env state.tree (left ++ piece :: right))
    (hk : Chronicled state (left ++ piece :: right)) (hp : path ∈ piece.begun)
    (hr : ∀ other ∈ pieces, other.IsRefused) {more : List Event}
    (hm : ∀ event ∈ more, ∀ place, event.called? = some place → place ∈ piece.uncalled) :
    Barred (state.events ++ more) (left ++ pieces ++ right) path := by
  have hpiece : piece ∈ left ++ piece :: right := List.mem_append_right _ List.mem_cons_self
  have howned : path ∈ piece.owned := piece.begun_subset_owned hp
  have hsymm : Std.Symm Path.Apart := ⟨fun _ _ ha => ha.symm⟩
  have hown := hc.single.apart
  rw [List.flatMap_singleton] at hown
  refine ⟨fun event he place hcalled hplace => ?_, fun other ho place hplace hwithin => ?_⟩
  · rcases List.mem_append.mp he with he | he
    · exact (hk.begun piece hpiece path hp).inside event he place (.inr (.inr hcalled)) hplace
    · by_contra hne
      have hmember := piece.uncalled_subset_owned (hm event he place hcalled)
      exact (hown.forall howned hmember (Ne.symm hne)).1 hplace
  · have hapart : other ∉ left ++ right := fun hforeign =>
      (hc.others hforeign hplace path howned).1 hwithin
    rcases List.mem_append.mp ho with ho | ho
    · rcases List.mem_append.mp ho with ho | ho
      · exact absurd (List.mem_append_left _ ho) hapart
      · exact hr other ho
    · exact absurd (List.mem_append_right _ ho) hapart

end Barred

/-- Work, its events and the refusals among them are as authorization wants them. -/
structure Guarded (env : Environment) (state : State) (pieces : List Work) : Prop where
  works : ∀ piece ∈ pieces, piece.Authorized env state.events
  events : AuthorizedAll env state.events
  refused : ∀ path value, .settled path true value ∈ state.events → value.datum? = none →
    Barred state.events pieces path

namespace Machine

variable {env : Environment} {steps : Nat} {machine next first last : Machine} {address : Address}

def Guarded (env : Environment) (machine : Machine) : Prop :=
  GraphQL.Guarded env machine.state (Strand.works machine.task.strands)

theorem guarded_start (env : Environment) (operation : Operation) (rootType : TypeDef)
    (root : Json) : (Machine.start operation rootType root).Guarded env where
  works piece hm := by
    obtain rfl := List.mem_singleton.mp hm
    exact fun hn => absurd rfl hn
  events past event later he := by simp [start, State.events] at he
  refused path value he := nomatch he

/-- Every step keeps what authorization wants. -/
theorem Guarded.advance (h : machine.Guarded env) (ht : machine.Tracked env)
    (move : machine.perform? env (.advance address) = some next) : next.Guarded env := by
  obtain ⟨left, piece, right, deeds, outcome, hs, -, htrim, hstate, hstep⟩ := advance_account move
  have hc := ht.coherent
  have hk := ht.chronicled
  have honce := ht.once .settlement
  unfold Machine.Guarded at h ⊢
  unfold Machine.Coherent at hc
  unfold Machine.Chronicled at hk
  rw [hs] at h
  rw [hs, Strand.works_append, Strand.works_ok] at hc hk honce
  have hpiece : piece.Authorized env machine.state.events := h.works piece (by simp)
  have hleft : ∀ other ∈ Strand.works outcome.strands,
      other.Authorized env (machine.state.performAll deeds).events := by
    rcases hstep with hstep | hstep
    · exact hstep.authorized hpiece
    · exact hstep.authorized hpiece
  have hnotes : ∀ deed ∈ deeds, deed.Notes (piece.Note env outcome) :=
    Work.notes_of_account hstep
  have hends : piece.IsRefused → Strand.works outcome.strands = [] := by
    rcases hstep with hstep | hstep
    · exact hstep.of_refused
    · cases hstep with
      | prepare | field => exact False.elim
  have hbelow : ∀ place ∈ (Strand.works outcome.strands).flatMap Work.owned,
      ∃ top ∈ piece.owned, top <+: place := (Work.succession_of_account hstep hc.single).below
  obtain ⟨more, hmore, hnoted⟩ := machine.state.performAll_notes hnotes
  have hcalled : ∀ event ∈ more, ∀ place, event.called? = some place → place ∈ piece.uncalled :=
    fun event he _ hp => (hnoted event he).called_uncalled hp
  have hsub : (Strand.works next.task.strands).Sublist
      (left.filterMap Except.toOption ++ Strand.works outcome.strands ++
        right.filterMap Except.toOption) := by
    simpa [Strand.works] using htrim.works_sublist
  rw [hmore] at hleft
  rw [hstate]
  refine ⟨?_, ?_, fun path value he hn => ?_⟩
  · rw [hmore]
    exact htrim.forall_works (fun other ho => (h.works other ho).append more) hleft
  · rw [hmore]
    exact h.events.append fun event he => (hnoted event he).authorized_event hpiece
  · rw [hmore] at he ⊢
    refine Barred.sublist ?_ hsub
    rcases List.mem_append.mp he with he | he
    · have hbarred := h.refused path value he hn
      rw [Strand.works_append, Strand.works_ok] at hbarred
      have hsettled : (⟨path, true⟩ : Issue) ∈ machine.state.reached .settlement :=
        List.mem_filterMap.mpr ⟨_, he, rfl⟩
      exact hbarred.replace (honce.declared _ hsettled).2 hk hbelow hends hcalled
    · obtain ⟨hbegun, hrefused⟩ := (hnoted _ he).refusal hn
      exact Barred.of_refusal hc hk hbegun hrefused hcalled

theorem Run.guarded (h : Run env steps first last) (ht : first.Tracked env)
    (hg : first.Guarded env) : last.Guarded env ∧ last.Tracked env := by
  refine h.preserves_tracked (fun hm move hg => hg.advance hm move) (fun move hg => ?_) ht hg
  obtain ⟨wake, -, rfl⟩ := pass_eq move
  exact ⟨hg.works, hg.events, hg.refused⟩

/-- No object below the root is executed but as what its authorization has exposed. -/
structure Enforces (env : Environment) (machine : Machine) : Prop where
  /-- Work on an object below the root is work on an object type, and the object was passed to the
  authorization of that type, which has settled and exposed the value that the work goes on with. -/
  executed : ∀ piece ∈ Strand.works machine.task.strands, ∀ frame, piece.frame? = some frame →
    frame.path ≠ [] → ∃ type, frame.type = .object type ∧
      Admits env machine.state.events frame.path type frame.value
  /-- So was every object below the root before it was written. -/
  written : ∀ past later (path : Path) keys propagating landed,
    machine.state.events = past ++ .wrote path (.object keys) propagating landed :: later →
      path ≠ [] → ∃ type exposed, Admits env past path type exposed
  /-- A resolver is called for a field of an object below the root with the value that the
  authorization of its type has exposed before, and the authorization settles with no other. -/
  called : ∀ past later (path : Path) key parentType fieldName parent resolver source,
    machine.state.events =
      past ++ .called (path.key key) parentType fieldName parent resolver source :: later →
    path ≠ [] → (∃ type, type.name = parentType ∧ Admits env past path type parent) ∧
      ∀ value, .settled path true value ∈ machine.state.events → value.datum? = some parent
  /-- No resolver is called inside of an object whose authorization exposes no value. -/
  refused : ∀ path value, .settled path true value ∈ machine.state.events →
    value.datum? = none → ∀ event ∈ machine.state.events, ∀ place, event.called? = some place →
      path <+: place → place = path

theorem Guarded.enforces (h : machine.Guarded env) (ht : machine.Tracked env) :
    machine.Enforces env where
  executed piece hm frame hf hn := (h.works piece hm).frame hf hn
  written past later path keys propagating landed he hn := h.events past _ later he hn
  called past later path key parentType fieldName parent resolver source he hn := by
    obtain ⟨type, hname, hadmits⟩ := h.events past _ later he path (.key key) rfl hn
    refine ⟨⟨type, hname, hadmits⟩, fun value hv => ?_⟩
    obtain ⟨settled, hs, hexposed⟩ := hadmits.settled
    have hmem : .settled path true settled ∈ machine.state.events :=
      he ▸ List.mem_append_left _ hs
    rw [(ht.once .settlement).settled_unique hmem hv]
    exact hexposed
  refused path value he hn := (h.refused path value he hn).uncalled

end Machine

namespace Executor

/-- **Authorization is not bypassed.** In every run, at every moment, no object below the root is
executed but as the value that its authorization has exposed, and nothing is called inside of an
object that was refused. So another executor, whose resolvers give other raw objects of the same
runtime types and with the same outcome of their authorization, answers with the same responses. -/
theorem authorization_enforced (executor : Executor) (schema : Schema) (request : Request) :
    (∀ env machine last steps, executor.start schema request = .ok (env, machine) →
      Machine.Run env steps machine last → last.Enforces env) ∧
    ∀ other, executor.Veils other schema request →
      (∀ moves, (executor.execute schema request moves).map (Except.map Execution.response) =
        (other.execute schema request moves).map (Except.map Execution.response)) ∧
      ∀ response, (∃ result, executor.Reaches schema request result ∧
          result.map Execution.response = response) ↔
        ∃ result, other.Reaches schema request result ∧
          result.map Execution.response = response := by
  refine ⟨fun env machine last steps hs hr => ?_, fun other h => h.responses⟩
  have hstart : machine.Guarded env := by
    obtain ⟨operation, rootType, -, rfl⟩ := start_ok hs
    exact Machine.guarded_start env operation rootType request.root
  obtain ⟨hguarded, htracked⟩ := hr.guarded (tracked_start hs) hstart
  exact hguarded.enforces htracked

end Executor

namespace Sample

/-- Gives a user with a number, at one path. -/
def numberedUser (number : Int) : Resolver where
  resolve _ _ _ info :=
    .ready (.value (if info.path = [.key "user"] then .obj [("number", .int number)] else .null))

/-- Users whose authorizer keeps their number to itself. -/
def numbered (number : Int) : Executor where
  registry :=
    { resolvers := [("Query.user", numberedUser number),
        ("User.name", { resolve := fun parent _ _ _ =>
                          .ready (.value ((parent.member? "name").getD .null)) })]
      authorizers := [("User", fun _ _ _ =>
        .deferred [.pause 5] (.value (.obj [("name", .str "Ada")])))] }

theorem execute_numbered (number : Int) :
    ((numbered number).execute titled request 30).map (Except.map fun execution =>
      (execution.response.data, execution.history.filterMap fun (_, event) => event.called?)) =
      some (.ok (.obj [("user", .obj [("name", .str "Ada")])],
        [[.key "user"], [.key "user", .key "name"]])) := by
  cbv

/-- Inside of the user the resolvers do not tell the numbers apart. -/
theorem answer_numbered (number other : Int) (env : Environment) (frame : ObjectFrame)
    (hn : frame.path ≠ []) (group : FieldGroup) (found : FieldLookup) (type : TypeRef) :
    (answer { env with registry := (numbered number).registry } frame group found type).1 =
      (answer { env with registry := (numbered other).registry } frame group found type).1 := by
  have hpath : frame.path.key group.key ≠ [.key "user"] := by
    intro he
    have hsplit : frame.path ++ [.key group.key] = [] ++ [.key "user"] := he
    exact hn (List.append_inj' hsplit rfl).1
  cases found with
  | introspection field => rfl
  | ordinary definition =>
    simp only [answer, numbered, Registry.resolver?, Members.get?]
    by_cases hkey : "Query.user" = Registry.fieldKey frame.type.name group.node.name
    · simp only [hkey, if_true, numberedUser, if_neg hpath]
    · simp only [hkey, if_false]
      rfl

/-- A number that is not exposed is veiled. -/
theorem numbered_veils (number other : Int) :
    (numbered number).Veils (numbered other) titled request where
  config := rfl
  registry operation rootType ho ht := by
    obtain rfl := Except.ok.inj ho
    obtain rfl := Except.ok.inj ht
    refine ⟨rfl, rfl, fun frame group found type hoccurs hl => ?_⟩
    let env (number : Int) := (numbered number).environment titled request
      { selections := [.field { name := "user", selections := [.field { name := "name" }] }] }
    cases hoccurs with
    | @field _ selections groups _ parent hg hm =>
    cases parent with
    | root =>
      have hgroups : groups =
          [{ key := "user", node := { name := "user", selections := [.field { name := "name" }] } }] := by
        refine Except.ok.inj (hg.symm.trans ?_)
        cbv
      rw [hgroups] at hm
      obtain rfl := List.mem_singleton.mp hm
      obtain ⟨rfl, rfl⟩ := Prod.mk.inj (Except.ok.inj hl)
      exact ⟨rfl, .ready (.inr (.intro (by simp [Path.key]) (by simp [Path.key]) rfl rfl rfl))⟩
    | @enter site type' value data exposed hr =>
      have hanswer := answer_numbered number other (env number) ⟨site.path, .object type', data⟩
        exposed.exposed_path_ne_nil group found type
      exact ⟨congrArg Reply.reports hanswer, hanswer ▸ .refl (.refl type) _⟩

end Sample

namespace Executor

open Sample

/-- The number of a user is kept to itself, so users of two numbers are answered alike. -/
theorem authorization_enforced_of_numbered :
    (∃ env machine last steps, (numbered 1).start titled request = .ok (env, machine) ∧
      Machine.Run env steps machine last ∧
      last.state.events.filterMap Event.called? = [[.key "user"], [.key "user", .key "name"]] ∧
      last.Enforces env) ∧
    ∀ moves, ((numbered 1).execute titled request moves).map (Except.map Execution.response) =
      ((numbered 2).execute titled request moves).map (Except.map Execution.response) := by
  obtain ⟨henforced, hveils⟩ := authorization_enforced (numbered 1) titled request
  refine ⟨?_, (hveils (numbered 2) (numbered_veils 1 2)).1⟩
  obtain ⟨execution, hreaches, hseen⟩ := Reaches.of_execute (execute_numbered 1)
  cases hreaches with
  | @ended env machine last steps _ hs hr he =>
    refine ⟨env, machine, last, steps, hs, hr, ?_, henforced env machine last steps hs hr⟩
    obtain ⟨-, rfl⟩ := Machine.execution_of_result he
    rw [State.events, List.filterMap_map]
    exact (Prod.mk.inj hseen).2

end Executor

end GraphQL
