import GraphQL.Proofs.Nulls
import GraphQL.Proofs.Plain

/-!
# Accounting for nulls

In a run of plain steps the nulls of the response and its errors account for each other: every error
is reported where the data hold a null, and a container becomes null only for an error inside of it
which every place on the way up passes on.
-/

namespace GraphQL

/-- True of deeds that report no error and write nothing. -/
def Deed.IsSilent : Deed → Prop
  | .report errors => errors = []
  | .write _ _ _ => False
  | .note event => event.written? = none
  | _ => True

namespace State

theorem Accounted.silent {state : State} (h : state.Accounted) {deeds : List Deed}
    (hd : ∀ deed ∈ deeds, deed.IsSilent) : (state.performAll deeds).Accounted := by
  induction deeds generalizing state with
  | nil => exact h
  | cons deed rest ih =>
    refine ih ?_ fun other ho => hd other (List.mem_cons_of_mem _ ho)
    have hfirst := hd deed List.mem_cons_self
    cases deed with
    | report errors =>
      obtain rfl : errors = [] := hfirst
      exact h.later rfl (by simp [perform, report, ResultTree.report]) [] (by simp)
        fun _ he => nomatch he
    | declare path type =>
      refine h.later rfl rfl _ (events_declare state path type) fun event he => ?_
      obtain rfl := List.mem_singleton.mp he
      rfl
    | write path entry propagating => cases hfirst
    | note event =>
      refine h.later rfl rfl _ (events_note state event) fun other ho => ?_
      obtain rfl := List.mem_singleton.mp ho
      exact hfirst
    | draw => exact h.later rfl rfl [] (by simp) fun _ he => nomatch he

end State

/-- The errors that end a site with a null belong there; there is one where a null is not
admitted. -/
structure Site.Ends (site : Site) (errors : List ResponseError) : Prop where
  placed : ∀ error ∈ errors, error.path = some site.path
  required : site.type.isNonNull = true → errors ≠ []

namespace Site

theorem path_fill {site : Site} {error : ResponseError} (h : error.path = none) :
    (site.fill error).path = some site.path := by
  unfold fill ResponseError.fillPlace ResponseError.fillPath ResponseError.fillLocation
  rw [h]
  split <;> rfl

theorem ends_failure (site : Site) (error : CompletionError) : site.Ends [site.failure error] where
  placed other ho := by
    obtain rfl := List.mem_singleton.mp ho
    exact path_fill rfl
  required _ := List.cons_ne_nil _ _

theorem ends_unadmitted (site : Site) (error : CompletionError) :
    site.Ends (if site.type.isNonNull then [site.failure error] else []) := by
  cases h : site.type.isNonNull with
  | true => exact site.ends_failure error
  | false => exact ⟨(fun _ he => nomatch he), fun hn => by rw [h] at hn; cases hn⟩

theorem ends_route {site : Site} {value : FieldValue} {errors : List ResponseError}
    (hu : value.Unplaced) (hr : site.route value = .null errors) : site.Ends errors := by
  cases value with
  | value data =>
    cases data with
    | null =>
      obtain rfl := Routed.null.inj hr
      exact site.ends_unadmitted .nullNotAllowed
    | bool | int | float | str | arr | obj => cases hr
  | list items => cases hr
  | error error =>
    obtain rfl := Routed.null.inj hr
    refine ⟨fun other ho => ?_, fun _ => List.cons_ne_nil _ _⟩
    obtain rfl := List.mem_singleton.mp ho
    exact path_fill hu
  | errors own =>
    cases own with
    | nil => cases hr
    | cons first rest =>
      obtain rfl := Routed.null.inj hr
      refine ⟨fun other ho => ?_, fun _ => List.cons_ne_nil _ _⟩
      obtain ⟨error, he, rfl⟩ := List.mem_map.mp ho
      exact path_fill (hu error he)
  | skip => cases hr

end Site

namespace Shaped

variable {env : Environment} {site : Site} {errors : List ResponseError}

theorem ends_ofObject {type : ObjectDef} {content : Content}
    (h : ofObject site type content = .null errors) : site.Ends errors := by
  cases content with
  | value value => cases h
  | items items =>
    obtain rfl := null.inj h
    exact site.ends_failure .listForObject

theorem ends_ofAbstract {type : TypeDef} {content : Content}
    (h : ofAbstract env site type content = .null errors) : site.Ends errors := by
  unfold ofAbstract at h
  dsimp only at h
  split at h
  · exact ends_ofObject h
  · obtain rfl := null.inj h
    exact site.ends_failure _

theorem ends_ofLeaf {type : Leaf.LeafDef} {content : Content}
    (h : ofLeaf env site type content = .null errors) : site.Ends errors := by
  cases content with
  | items items =>
    obtain rfl := null.inj h
    exact site.ends_failure _
  | value value =>
    simp only [ofLeaf] at h
    split at h
    · obtain rfl := null.inj h
      exact site.ends_failure _
    · obtain rfl := null.inj h
      exact site.ends_unadmitted .nullNotAllowed
    · cases h

theorem ends_ofNamed {content : Content} {type : TypeDef}
    (h : ofNamed env site content type = .null errors) : site.Ends errors := by
  cases type with
  | scalar | enum => exact ends_ofLeaf h
  | union | interface => exact ends_ofAbstract h
  | object => exact ends_ofObject h
  | inputObject => cases h

theorem ends_of {content : Content} {type : TypeRef}
    (h : of env site content type = .null errors) : site.Ends errors := by
  induction type with
  | nonNull inner ih => exact ih h
  | list item _ =>
    simp only [of] at h
    split at h
    · obtain rfl := null.inj h
      exact site.ends_failure .listExpected
    · cases h
  | resolved definition => exact ends_ofNamed h
  | late name =>
    simp only [of] at h
    split at h
    · exact ends_ofNamed h
    · cases h

end Shaped

namespace Work

variable {env : Environment} {state : State} {piece : Work} {deeds : List Deed} {outcome : Task}

/-- A site that ends with errors of its own. -/
theorem accounted_null (hc : Coherent env state.tree [piece]) (hk : Chronicled state [piece])
    (ha : state.Accounted) {site : Site} (hs : site ∈ piece.sites env)
    (hb : site.path ∈ piece.begun)
    {errors : List ResponseError} (he : site.Ends errors) :
    (state.performAll [.report errors, .write site.path .null site.type.isNonNull]).Accounted :=
  ha.null hk.recorded (hk.begun piece (List.mem_singleton_self _) _ hb) hc.regular
    (hc.isOpen _ (by simpa using path_mem_owned hs)) (isRequired_site hc hs)
    (fun _ => path_ne_nil hc hs) he.placed he.required

/-- Calling a resolver reports nothing but what its collector is handed. -/
theorem silent_fieldDeeds {frame : ObjectFrame} {group : FieldGroup} {found : FieldLookup}
    {type : TypeRef} (hn : Reference.collected (Reference.arguments env frame group found).collector
      (Reference.answer env frame group found type).1.reports = []) :
    ∀ deed ∈ fieldDeeds env frame group found type, deed.IsSilent :=
  forall_fieldDeeds rfl (fun _ _ => rfl) hn

theorem pushedBy_eq {frame : ObjectFrame} {group : FieldGroup} {found : FieldLookup}
    {type : TypeRef} (hl : Reference.lookup env frame group = .ok (found, type)) :
    pushedBy env frame group =
      Reference.collected (Reference.arguments env frame group found).collector
        (Reference.answer env frame group found type).1.reports := by
  simp only [pushedBy, hl]

/-- A plain step keeps the nulls and the errors accounted for. -/
theorem Step.accounted (h : Step env state piece deeds outcome)
    (hc : Coherent env state.tree [piece]) (hk : Chronicled state [piece]) (hp : piece.Plain env)
    (ha : state.Accounted) :
    (state.performAll deeds).Accounted := by
  cases h with
  | gatherFault | prepareFault | prepareAdmit | fieldFault | fieldAdmit | prepared | skip | content
  | enter => exact ha
  | @gather frame selections serial groups hg =>
    exact ha.write (hk.begun _ (List.mem_singleton_self _) _ (List.mem_singleton_self _)) hc.regular
      (hc.isOpen _ (by simp [owned])) (Gathering.nodup_collect hg) (by simp)
  | prepare hl => exact ha.silent (silent_fieldDeeds (pushedBy_eq hl ▸ hp.pushed))
  | field hl => exact ha.silent (silent_fieldDeeds (pushedBy_eq hl ▸ hp.pushed))
  | prepareDeclare | fieldDeclare | ready | queue | start | wake | settle | sleep =>
    refine ha.silent fun deed hd => ?_
    obtain rfl := List.mem_singleton.mp hd
    trivial
  | report =>
    refine ha.silent fun deed hd => ?_
    obtain rfl := List.mem_singleton.mp hd
    exact hp.pushed
  | @null site purpose value errors hr =>
    exact accounted_null hc hk ha (List.mem_singleton_self _) (List.mem_singleton_self _)
      (Site.ends_route (hp.unplaced site purpose value rfl) hr)
  | @refuse site type value items hr =>
    exact accounted_null hc hk ha (List.mem_singleton_self _) (List.mem_singleton_self _)
      (site.ends_failure _)
  | @complete site content =>
    have hbegun : Begun state.events site.path :=
      hk.begun _ (List.mem_singleton_self _) _ (List.mem_singleton_self _)
    have hopen : state.tree.data.Open site.path := hc.isOpen _ (by simp [owned])
    cases hs : Shaped.of env site content site.type with
    | null errors =>
      exact accounted_null hc hk ha (List.mem_singleton_self _) (List.mem_singleton_self _)
        (Shaped.ends_of hs)
    | leaf output => exact ha.write hbegun hc.regular hopen trivial (by simp)
    | list itemType items =>
      have hwritten : (state.perform (.write site.path (.list items.length) false)).Accounted :=
        ha.write hbegun hc.regular hopen trivial (by simp)
      refine hwritten.silent fun deed hd => ?_
      obtain ⟨element, -, rfl⟩ := List.mem_map.mp hd
      trivial
    | object type value =>
      refine ha.silent fun deed hd => ?_
      rw [Shaped.deeds, Shaped.asked] at hd
      split at hd
      · obtain rfl := List.mem_singleton.mp hd
        rfl
      · cases hd
    | fault raised => exact ha

theorem Prunes.accounted (h : Prunes env state piece deeds outcome) (ha : state.Accounted) :
    (state.performAll deeds).Accounted := by
  cases h <;> exact ha

end Work

namespace Machine

variable {env : Environment}

theorem accounted_start (operation : Operation) (rootType : TypeDef) (root : Json) :
    (Machine.start operation rootType root).state.Accounted where
  located _ he := nomatch he
  explained path hn := by
    cases path with
    | nil => cases hn
    | cons segment rest => cases segment <;> cases hn
  leaves path value hl := by
    cases path with
    | nil => cases hl
    | cons segment rest => cases segment <;> cases hl
  filled _ he := nomatch he

/-- Along a run of plain steps the nulls and the errors stay accounted for. -/
theorem RunBy.accounted {first last : Machine} (h : RunBy env (Work.Plain env) first last)
    (hc : first.Coherent env) (hk : first.Chronicled) (ha : first.state.Accounted) :
    last.state.Accounted := by
  induction h with
  | refl machine => exact ha
  | @advance machine next last address piece there holds move _ ih =>
    refine ih (hc.advance move) (hk.advance hc move) ?_
    obtain ⟨left, right, deeds, outcome, hs, -, hstate, hstep⟩ := advance_at there move
    unfold Machine.Coherent at hc
    unfold Machine.Chronicled at hk
    rw [hs, Strand.works_append, Strand.works_ok] at hc hk
    rw [hstate]
    rcases hstep with hstep | hstep
    · exact hstep.accounted hc.single hk.single holds ha
    · exact hstep.accounted ha
  | pass move _ ih =>
    obtain ⟨wake, -, rfl⟩ := pass_eq move
    have hr := hk.recorded
    exact ih hc ⟨⟨hr.disciplined, hr.alike, hr.nulls⟩, hk.begun, hk.fresh, hk.uncalled⟩
      ⟨ha.located, ha.explained, ha.leaves, ha.filled⟩

end Machine

/-- The path at which an object or a list was written. -/
def Event.container? : Event → Option Path
  | wrote path (.object _) false _ => some path
  | wrote path (.list _) false _ => some path
  | _ => none

/-- The write of a container is no write of anything else. -/
theorem Event.container_cases {event : Event} {path : Path} (h : event.container? = some path) :
    event.written? = some path ∧ (∀ landed, event ≠ .wrote path .null false landed) ∧
      ∀ value landed, event ≠ .wrote path (.leaf value) false landed := by
  unfold container? at h
  split at h
  · exact ⟨h, (fun _ he => nomatch he), fun _ _ he => nomatch he⟩
  · exact ⟨h, (fun _ he => nomatch he), fun _ _ he => nomatch he⟩
  · cases h

/-- What has happened, in order. -/
def Execution.events (execution : Execution) : List Event := execution.history.map Prod.snd

namespace State

variable {state : State} {path : Path}

/-- Where a container was written and there is a null in the response, there is one in the data. -/
theorem Accounted.null_of_render (h : state.Accounted) (hk : state.Recorded)
    (hr : state.tree.Regular) {event : Event} (hm : event ∈ state.events)
    (he : event.container? = some path) (hn : state.tree.data.render.at? path = some .null) :
    state.tree.data.at? path = some .null := by
  obtain ⟨hw, -, hleaf⟩ := Event.container_cases he
  rcases Slot.at?_render hr.distinct hn with ⟨found, hf, hnull⟩ | ⟨above, segment, rest, value, rfl, hl⟩
  · cases found with
    | null => exact hf
    | pending => exact absurd hf (h.filled event hm path hw)
    | leaf value =>
      obtain ⟨own, landed, hown⟩ := h.leaves path value hf
      exact absurd (hk.disciplined.written_unique hown hm rfl hw) (hleaf own landed)
    | object members => cases hnull
    | list items => cases hnull
  · -- the place above was written as a container, since it was reserved from there
    obtain ⟨own, landed, hown⟩ := h.leaves above value hl
    obtain ⟨past, later, hsplit⟩ := List.append_of_mem hm
    have hfollows := hk.disciplined.follows past event later hsplit
    have hnext : Declares past (above ++ [segment]) :=
      hfollows.typed _ hw _ ⟨rest, by simp⟩ (by simp)
    have hreserved := hk.disciplined.reserves (hsplit ▸ hnext.append _)
    obtain ⟨container, dropped, hcontainer, hopens⟩ := hreserved
    obtain ⟨-, rfl, -, -⟩ :=
      Event.wrote.inj (hk.disciplined.written_unique hown hcontainer rfl rfl)
    exact absurd hopens id

end State

namespace Executor

/-- **Nulls and errors account for each other.** In every run of plain steps that ends well, pruned
or not: each error of the response says where it belongs, and on the way there the data hold a null;
and each place that was written as an object or a list and is null in the data has an error inside
of it, such that no place from there down to the error admits null. -/
theorem nulls_account_for_errors (executor : Executor) (schema : Schema) (request : Request)
    (execution : Execution) {env : Environment} {machine last : Machine}
    (hs : executor.start schema request = .ok (env, machine))
    (hr : Machine.RunBy env (Work.Plain env) machine last)
    (he : last.result? = some (.ok execution)) :
    (∀ error ∈ execution.response.errors, ∃ path, error.path = some path ∧
      ∃ above, above <+: path ∧ execution.response.data.at? above = some .null) ∧
    (∀ path ∈ execution.events.filterMap Event.container?,
      execution.response.data.at? path = some .null →
        ∃ error ∈ execution.response.errors, error.Explains execution.events path) := by
  have hstart : machine.Coherent env ∧ machine.Chronicled ∧ machine.state.Accounted := by
    obtain ⟨operation, rootType, -, rfl⟩ := start_ok hs
    exact ⟨coherent_start hs, Machine.chronicled_start operation rootType request.root,
      Machine.accounted_start operation rootType request.root⟩
  obtain ⟨hcoherent, hchronicled, haccounted⟩ := hstart
  obtain ⟨steps, hrun⟩ := hr.run
  have hregular := (hrun.coherent hcoherent).regular
  have hrecorded := (hrun.chronicled hcoherent hchronicled).recorded
  have hlast := hr.accounted hcoherent hchronicled haccounted
  have hexecution : execution.response.data = last.state.tree.data.render ∧
      execution.response.errors.Perm last.state.tree.errors ∧
      execution.events = last.state.events := by
    obtain ⟨-, rfl⟩ := Machine.execution_of_result he
    exact ⟨rfl, List.mergeSort_perm _ _, rfl⟩
  obtain ⟨hdata, herrors, hevents⟩ := hexecution
  rw [hdata, hevents]
  refine ⟨fun error herror => ?_, fun path hm hn => ?_⟩
  · obtain ⟨path, hpath, above, ha, hnull⟩ := hlast.located error (herrors.mem_iff.mp herror)
    exact ⟨path, hpath, above, ha,
      Slot.render_at? hregular.distinct hnull fun hp => nomatch hp⟩
  · obtain ⟨event, hevent, hcontainer⟩ := List.mem_filterMap.mp hm
    obtain ⟨hwritten, hnone, -⟩ := Event.container_cases hcontainer
    have hnull := hlast.null_of_render hrecorded hregular hevent hcontainer hn
    rcases hlast.explained path hnull with ⟨landed, hown⟩ | ⟨error, herror, hx⟩
    · have hsame := hrecorded.disciplined.written_unique hown hevent rfl hwritten
      exact absurd hsame (hnone landed)
    · exact ⟨error, herrors.mem_iff.mpr herror, hx⟩

end Executor

namespace Sample

theorem quiet_users {name : Resolution} (h : name.Quiet) :
    ∀ entry ∈ (registry name).resolvers, ∀ parent args context info,
      (entry.2.resolve parent args context info).reports = [] ∧
        (entry.2.resolve parent args context info).resolution.Quiet := by
  intro entry he
  rcases List.mem_cons.mp he with rfl | he
  · exact fun _ _ _ _ => ⟨rfl, .ready (.value _)⟩
  · obtain rfl := List.mem_singleton.mp he
    exact fun _ _ _ _ => ⟨rfl, h⟩

theorem quiet_titles : titles.Quiet := by
  refine Registry.quiet_of_resolvers fun entry he => ?_
  rcases List.mem_cons.mp he with rfl | he
  · exact fun _ _ _ _ => ⟨rfl, .ready (.value _)⟩
  · exact quiet_users (.ready (.error rfl)) entry he

/-- The user is null in the data, though it was written as an object. -/
theorem data_polite :
    (({ registry := titles } : Executor).execute titled polite 30).map (fun result =>
      result.map fun execution => (execution.response.data,
        execution.history.filterMap fun (_, event) => event.container?)) =
      some (.ok (.obj [("user", .null)], [[], [.key "user"]])) := by
  cbv

end Sample

namespace Executor

/-- The theorem at a user whose name is not known: there is an error inside of the user that
explains why the user is null. -/
theorem polite_accounted : ∃ execution : Execution,
    execution.response.data = .obj [("user", .null)] ∧
      ∃ error ∈ execution.response.errors, error.Explains execution.events [.key "user"] := by
  obtain ⟨execution, hreaches, hseen⟩ := Reaches.of_execute Sample.data_polite
  obtain ⟨hdata, hcontainers⟩ := Prod.mk.inj hseen
  have hmem : [.key "user"] ∈ execution.events.filterMap Event.container? := by
    rw [Execution.events, List.filterMap_map]
    exact hcontainers ▸ List.mem_cons_of_mem _ List.mem_cons_self
  cases hreaches with
  | ended hs hr he =>
    obtain ⟨operation, rootType, rfl, rfl⟩ := start_ok hs
    have hplain : Machine.RunBy _ _ _ _ := hr.plain Sample.quiet_titles fun piece hm => by
      obtain rfl := List.mem_singleton.mp hm
      trivial
    refine ⟨execution, hdata, ?_⟩
    refine (nulls_account_for_errors _ _ _ execution hs hplain he).2 _ hmem ?_
    rw [hdata]
    rfl

end Executor

end GraphQL
