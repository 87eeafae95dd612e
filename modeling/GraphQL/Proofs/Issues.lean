import GraphQL.Proofs.Notes

/-!
# Issues

What is to be settled at a place: the value of a field or of an element of a list and, where it
turns out to be an object, the authorization of that object. The pieces of work tell which issues are
still ahead. Along a run no issue starts twice and none settles twice, and what is ahead has done
neither.
-/

namespace GraphQL

/-- The value at a path, or the authorization of the object there. -/
structure Issue where
  path : Path
  authorizing : Bool
  deriving DecidableEq

/-- What there is to note about an issue. -/
inductive Milestone where
  | start
  | settlement

namespace Event

/-- The issue that starts. -/
def started? : Event → Option Issue
  | started path authorizing => some ⟨path, authorizing⟩
  | _ => none

/-- The issue that settles. -/
def settled? : Event → Option Issue
  | settled path authorizing _ => some ⟨path, authorizing⟩
  | _ => none

def reaches? (event : Event) : Milestone → Option Issue
  | .start => event.started?
  | .settlement => event.settled?

end Event

/-- The issue that reaches a milestone by a deed. -/
def Deed.reaches? (milestone : Milestone) : Deed → Option Issue
  | .note event => event.reaches? milestone
  | _ => none

namespace State

/-- The issues that have reached a milestone. -/
def reached (state : State) (milestone : Milestone) : List Issue :=
  state.events.filterMap fun event => event.reaches? milestone

theorem reached_perform (state : State) (deed : Deed) (milestone : Milestone) :
    (state.perform deed).reached milestone =
      state.reached milestone ++ (deed.reaches? milestone).toList := by
  cases deed with
  | report errors => simp [reached, Deed.reaches?]
  | draw => simp [reached, Deed.reaches?]
  | declare path type =>
    cases milestone <;>
      simp [reached, Deed.reaches?, Event.reaches?, Event.started?, Event.settled?]
  | write path entry propagating =>
    cases milestone <;>
      simp [reached, Deed.reaches?, Event.reaches?, Event.started?, Event.settled?]
  | note event =>
    rw [reached, reached, events_note, List.filterMap_append]
    cases h : event.reaches? milestone <;> simp [Deed.reaches?, h]

theorem reached_performAll (state : State) (deeds : List Deed) (milestone : Milestone) :
    (state.performAll deeds).reached milestone =
      state.reached milestone ++ deeds.filterMap (Deed.reaches? milestone) := by
  induction deeds generalizing state with
  | nil => simp
  | cons deed rest ih =>
    rw [performAll_cons, ih, reached_perform, List.append_assoc]
    cases h : deed.reaches? milestone <;> simp [h]

end State

/-- The issues after one of this purpose has settled at a path. -/
def Purpose.later (path : Path) : Purpose → List Issue
  | complete => [⟨path, true⟩]
  | enter _ => []

/-- The issue of this purpose at a path and those after it. -/
def Purpose.ahead (path : Path) (purpose : Purpose) : List Issue :=
  ⟨path, purpose.isAuthorizing⟩ :: purpose.later path

namespace Work

open Strand

/-- The issues that have still to reach a milestone before the work is done. -/
def ahead (milestone : Milestone) : Work → List Issue
  | select _ _ _ => []
  | prepare frame phase groups prepared =>
    (prepare frame phase groups prepared).owned.flatMap fun path => Purpose.complete.ahead path
  | field frame _ group => Purpose.complete.ahead (frame.path.key group.key)
  | settle site purpose _ => purpose.ahead site.path
  | await site purpose progress _ _ =>
    match milestone, progress with
    | .settlement, _ => purpose.ahead site.path
    | .start, .queued _ => purpose.ahead site.path
    | .start, _ => purpose.later site.path
  | resume site purpose _ => purpose.later site.path
  | complete site _ => Purpose.complete.later site.path

theorem path_of_later {path : Path} {purpose : Purpose} {issue : Issue}
    (h : issue ∈ purpose.later path) : issue.path = path := by
  cases purpose with
  | complete => rw [List.mem_singleton.mp h]
  | enter type => cases h

theorem path_of_ahead {path : Path} {purpose : Purpose} {issue : Issue}
    (h : issue ∈ purpose.ahead path) : issue.path = path := by
  rcases List.mem_cons.mp h with rfl | h
  · rfl
  · exact path_of_later h

/-- The issues that are ahead belong to the places of the work. -/
theorem owned_of_ahead {milestone : Milestone} {piece : Work} {issue : Issue}
    (h : issue ∈ piece.ahead milestone) : issue.path ∈ piece.owned := by
  cases piece with
  | select => cases h
  | prepare frame phase groups prepared =>
    obtain ⟨path, hp, hi⟩ := List.mem_flatMap.mp h
    rw [path_of_ahead hi]
    exact hp
  | field => exact List.mem_singleton.mpr (path_of_ahead h)
  | settle => exact List.mem_singleton.mpr (path_of_ahead h)
  | await site purpose progress =>
    refine List.mem_singleton.mpr ?_
    cases milestone with
    | settlement => exact path_of_ahead h
    | start =>
      cases progress with
      | queued => exact path_of_ahead h
      | started => exact path_of_later h
      | asleep => exact path_of_later h
  | resume => exact List.mem_singleton.mpr (path_of_later h)
  | complete site =>
    have hlater : issue ∈ Purpose.complete.later site.path := h
    exact List.mem_singleton.mpr (path_of_later hlater)

theorem later_subset_ahead (path : Path) (purpose : Purpose) :
    purpose.later path ⊆ purpose.ahead path := List.subset_cons_self _ _

theorem not_mem_later (path : Path) (purpose : Purpose) :
    (⟨path, purpose.isAuthorizing⟩ : Issue) ∉ purpose.later path := by
  cases purpose <;> simp [Purpose.later, Purpose.isAuthorizing]

variable {env : Environment} {state : State} {piece : Work} {deeds : List Deed} {outcome : Task}
  {milestone : Milestone}

/-- What reaches a milestone in a step was ahead of the piece that takes it. What is ahead of the
work that it leaves was ahead before and has not reached the milestone, or is new: it belongs to a
place inside of one that the piece has begun with. -/
structure Passes (env : Environment) (milestone : Milestone) (piece : Work) (deeds : List Deed)
    (pieces : List Work) : Prop where
  nodup : (deeds.filterMap (Deed.reaches? milestone)).Nodup
  reached : ∀ issue ∈ deeds.filterMap (Deed.reaches? milestone),
    issue ∈ piece.ahead milestone ∧ ∃ site ∈ piece.sites env, issue.path = site.path
  ahead : ∀ other ∈ pieces, ∀ issue ∈ other.ahead milestone,
    issue ∉ deeds.filterMap (Deed.reaches? milestone) ∧ (issue ∈ piece.ahead milestone ∨
      ∃ top ∈ piece.begun, ∃ segment, issue.path = top ++ [segment])

/-- Work that reaches no milestone. -/
theorem passes_idle {pieces : List Work} (hd : deeds.filterMap (Deed.reaches? milestone) = [])
    (hp : ∀ other ∈ pieces, ∀ issue ∈ other.ahead milestone, issue ∈ piece.ahead milestone ∨
      ∃ top ∈ piece.begun, ∃ segment, issue.path = top ++ [segment]) :
    Passes env milestone piece deeds pieces := by
  refine ⟨by simp [hd], fun issue hi => ?_, fun other ho issue hi => ⟨?_, hp other ho issue hi⟩⟩
  · rw [hd] at hi
    cases hi
  · rw [hd]
    exact List.not_mem_nil

/-- Work that is left alone. -/
theorem passes_same {pieces : List Work} (hd : deeds.filterMap (Deed.reaches? milestone) = [])
    (hp : ∀ other ∈ pieces, other.ahead milestone ⊆ piece.ahead milestone) :
    Passes env milestone piece deeds pieces :=
  passes_idle hd fun other ho _ hi => .inl (hp other ho hi)

/-- Work that goes on as another piece of work. -/
theorem passes_on {left : Work} (hd : deeds.filterMap (Deed.reaches? milestone) = [])
    (hp : left.ahead milestone ⊆ piece.ahead milestone) :
    Passes env milestone piece deeds [left] :=
  passes_same hd (List.forall_mem_singleton.mpr hp)

theorem reaches_fieldDeeds (frame : ObjectFrame) (group : FieldGroup) (found : FieldLookup)
    (type : TypeRef) :
    (fieldDeeds env frame group found type).filterMap (Deed.reaches? milestone) = [] := by
  refine List.filterMap_eq_nil_iff.mpr (forall_fieldDeeds ?_ (fun _ _ => ?_) ?_) <;>
    cases milestone <;> rfl

theorem reaches_shaped (site : Site) (shaped : Shaped) :
    (shaped.deeds env site).filterMap (Deed.reaches? milestone) = [] := by
  cases shaped with
  | null | leaf | fault => rfl
  | list itemType items =>
    refine List.filterMap_eq_nil_iff.mpr fun deed hd => ?_
    rcases List.mem_cons.mp hd with rfl | hd
    · rfl
    · obtain ⟨element, -, rfl⟩ := List.mem_map.mp hd
      rfl
  | object type value =>
    rw [Shaped.deeds, Shaped.asked]
    cases env.registry.authorizer? type.name <;> cases milestone <;> rfl

/-- The value of an issue settles, which started before or settles at once. -/
theorem passes_settlement {site : Site} {purpose : Purpose} {value : FieldValue}
    (hs : piece.ahead .settlement = purpose.ahead site.path)
    (hl : purpose.later site.path ⊆ piece.ahead .start) (hsite : site ∈ piece.sites env) :
    Passes env milestone piece [.note (.settled site.path purpose.isAuthorizing value)]
      [resume site purpose value] := by
  cases milestone with
  | start =>
    exact passes_on rfl hl
  | settlement =>
    refine ⟨List.nodup_singleton _, fun issue hi => ?_, fun other ho issue hi => ?_⟩
    · obtain rfl := List.mem_singleton.mp hi
      exact ⟨hs ▸ List.mem_cons_self, site, hsite, rfl⟩
    · obtain rfl := List.mem_singleton.mp ho
      refine ⟨fun hr => ?_, .inl (hs ▸ later_subset_ahead _ _ hi)⟩
      obtain rfl := List.mem_singleton.mp hr
      exact not_mem_later _ _ hi

/-- The value of an issue is started; its settlement is still ahead. -/
theorem passes_started {site : Site} {purpose : Purpose} {ticket : Nat} {stages : List Stage}
    {value : FieldValue} :
    Passes env milestone (await site purpose (.queued ticket) stages value)
      [.note (.started site.path purpose.isAuthorizing)]
      [await site purpose .started stages value] := by
  cases milestone with
  | settlement => exact passes_on rfl (List.Subset.refl _)
  | start =>
    refine ⟨List.nodup_singleton _, fun issue hi => ?_, fun other ho issue hi => ?_⟩
    · obtain rfl := List.mem_singleton.mp hi
      exact ⟨List.mem_cons_self, site, List.mem_singleton_self _, rfl⟩
    · obtain rfl := List.mem_singleton.mp ho
      refine ⟨fun hr => ?_, .inl (later_subset_ahead _ _ hi)⟩
      obtain rfl := List.mem_singleton.mp hr
      exact not_mem_later _ _ hi

theorem Step.passes (h : Step env state piece deeds outcome) (milestone : Milestone) :
    Passes env milestone piece deeds (works outcome.strands) := by
  cases h with
  | gatherFault | prepareFault | fieldFault | skip => exact passes_same rfl (by simp)
  | @gather frame selections serial groups hg =>
    have htop := List.mem_singleton_self frame.path
    refine passes_idle rfl (forall_works_gathered
      (fun issue hi => .inr ⟨frame.path, htop, ?_⟩)
      fun group _ issue hi => .inr ⟨frame.path, htop, .key group.key, path_of_ahead hi⟩)
    obtain ⟨group, -, he⟩ := List.mem_map.mp (owned_of_ahead hi)
    exact ⟨.key group.key, he.symm⟩
  | prepared =>
    refine passes_same rfl (forall_works_prepared fun entry he issue hi => ?_)
    refine List.mem_flatMap.mpr ⟨entry.1.path, ?_, hi⟩
    exact List.mem_append_left _ (List.mem_map_of_mem he)
  | @prepare frame group rest prepared found type hl =>
    refine passes_on (reaches_fieldDeeds frame group found type) fun issue hi => ?_
    obtain ⟨path, ho, hi⟩ := List.mem_flatMap.mp hi
    refine List.mem_flatMap.mpr ⟨path, ?_, hi⟩
    rw [owned_prepared] at ho
    exact ho
  | @field frame group found type hl =>
    exact passes_on (reaches_fieldDeeds frame group found type) (List.Subset.refl _)
  | @ready site purpose value =>
    exact passes_settlement rfl (later_subset_ahead _ _) (List.mem_singleton_self _)
  | @settle site purpose value =>
    exact passes_settlement rfl (List.Subset.refl _) (List.mem_singleton_self _)
  | start => exact passes_started
  | prepareDeclare | prepareAdmit | fieldDeclare | fieldAdmit | queue | wake | sleep | report =>
    cases milestone <;> exact passes_on rfl (List.Subset.refl _)
  | null | refuse => exact passes_same rfl (by simp)
  | content | enter => exact passes_on rfl (List.Subset.refl _)
  | @complete site content =>
    refine passes_idle (reaches_shaped site _) (forall_works_shaped
      (fun itemType items _ place resolution _ issue hi => .inr ?_) fun _ _ _ issue hi => .inl hi)
    exact ⟨site.path, List.mem_singleton_self _, .index place, path_of_ahead hi⟩

theorem Prunes.passes (h : Prunes env state piece deeds outcome) (milestone : Milestone) :
    Passes env milestone piece deeds (works outcome.strands) := by
  cases h with
  | prepare =>
    refine passes_on rfl fun issue hi => ?_
    obtain ⟨path, ho, hi⟩ := List.mem_flatMap.mp hi
    refine List.mem_flatMap.mpr ⟨path, ?_, hi⟩
    rcases List.mem_append.mp ho with ho | ho
    · exact List.mem_append_left _ ho
    · exact List.mem_append_right _ (List.mem_cons_of_mem _ ho)
  | field => exact passes_same rfl (by simp)

end Work

/-- No issue has reached the milestone twice, and none that is ahead of the work has reached it. -/
structure Once (milestone : Milestone) (state : State) (pieces : List Work) : Prop where
  nodup : (state.reached milestone).Nodup
  declared : ∀ issue ∈ state.reached milestone,
    issue.path ≠ [] ∧ Declares state.events issue.path
  ahead : ∀ piece ∈ pieces, ∀ issue ∈ piece.ahead milestone, issue ∉ state.reached milestone

namespace Once

variable {milestone : Milestone} {state : State} {piece : Work} {left right pieces : List Work}

theorem sublist (h : Once milestone state pieces) {part : List Work} (hs : part.Sublist pieces) :
    Once milestone state part :=
  ⟨h.nodup, h.declared, fun piece hm => h.ahead piece (hs.mem hm)⟩

/-- A step of a piece of work reaches milestones of its own. -/
theorem replace (h : Once milestone state (left ++ piece :: right))
    (hc : Coherent env state.tree (left ++ piece :: right))
    (hk : Chronicled state (left ++ piece :: right)) {deeds : List Deed}
    (hp : Work.Passes env milestone piece deeds pieces) :
    Once milestone (state.performAll deeds) (left ++ pieces ++ right) := by
  have hpiece : piece ∈ left ++ piece :: right := List.mem_append_right _ List.mem_cons_self
  obtain ⟨more, hmore⟩ := state.events_performAll deeds
  have hown : ∀ issue ∈ deeds.filterMap (Deed.reaches? milestone),
      issue.path ∈ piece.owned ∧ issue ∉ state.reached milestone := fun issue hi =>
    ⟨Work.owned_of_ahead (hp.reached issue hi).1, h.ahead piece hpiece issue (hp.reached issue hi).1⟩
  refine ⟨?_, fun issue hi => ?_, fun other ho issue hi hr => ?_⟩
  · rw [State.reached_performAll, List.nodup_append]
    refine ⟨h.nodup, hp.nodup, fun issue hi other ho he => ?_⟩
    exact (hown other ho).2 (he ▸ hi)
  · rw [hmore]
    rw [State.reached_performAll] at hi
    rcases List.mem_append.mp hi with hi | hi
    · exact ⟨(h.declared issue hi).1, (h.declared issue hi).2.append more⟩
    · obtain ⟨-, site, hsite, hpath⟩ := hp.reached issue hi
      have hroot := (hc.declared piece hpiece site hsite).1
      have hbegun := hk.begun piece hpiece _ (Work.begun_of_site hsite)
      exact hpath ▸ ⟨hroot, (hbegun.typed _ (List.prefix_refl _) hroot).append more⟩
  · rw [State.reached_performAll] at hr
    have hforeign : other ∈ left ++ right → False := by
      intro hm
      have hmem : other ∈ left ++ piece :: right := by
        rcases List.mem_append.mp hm with hm | hm
        · exact List.mem_append_left _ hm
        · exact List.mem_append_right _ (List.mem_cons_of_mem _ hm)
      rcases List.mem_append.mp hr with hr | hr
      · exact h.ahead other hmem issue hi hr
      · have hapart := hc.others hm (Work.owned_of_ahead hi) issue.path (hown issue hr).1
        exact hapart.1 (List.prefix_refl _)
    rcases List.mem_append.mp ho with ho | ho
    · rcases List.mem_append.mp ho with ho | ho
      · exact hforeign (List.mem_append_left _ ho)
      · obtain ⟨hnot, hnew⟩ := hp.ahead other ho issue hi
        rcases List.mem_append.mp hr with hr | hr
        · rcases hnew with hnew | ⟨top, ht, segment, hpath⟩
          · exact h.ahead piece hpiece issue hnew hr
          · -- nothing has been recorded inside of a place that has begun
            obtain ⟨-, type, hd⟩ := h.declared issue hr
            have hsame := (hk.begun piece hpiece top ht).inside _ hd issue.path (.inl rfl)
              (hpath ▸ List.prefix_append _ _)
            rw [hpath] at hsame
            simp at hsame
        · exact hnot hr
    · exact hforeign (List.mem_append_right _ ho)

/-- A value settles once. -/
theorem settled_unique (h : Once .settlement state pieces) {path : Path} {authorizing : Bool}
    {value other : FieldValue} (hv : .settled path authorizing value ∈ state.events)
    (ho : .settled path authorizing other ∈ state.events) : other = value := by
  have hsame : Event.settled path authorizing other = .settled path authorizing value :=
    eq_of_nodup_filterMap h.nodup hv ho rfl rfl
  exact (Event.settled.inj hsame).2.2

end Once

namespace Machine

variable {env : Environment} {steps : Nat} {machine next first last : Machine} {address : Address}

/-- The work of a machine, its tree and its history fit together. -/
structure Tracked (env : Environment) (machine : Machine) : Prop where
  coherent : machine.Coherent env
  chronicled : machine.Chronicled
  once : ∀ milestone, Once milestone machine.state (Strand.works machine.task.strands)

theorem tracked_start (env : Environment) (operation : Operation) (rootType : TypeDef)
    (root : Json) :
    (Machine.start operation rootType root).Tracked env where
  coherent := coherent_start env operation rootType root
  chronicled := chronicled_start operation rootType root
  once milestone := by
    refine ⟨.nil, fun _ hi => (nomatch hi), fun piece hm issue hi => ?_⟩
    obtain rfl := List.mem_singleton.mp hm
    cases hi

theorem Tracked.advance (h : machine.Tracked env)
    (move : machine.perform? env (.advance address) = some next) : next.Tracked env := by
  refine ⟨h.coherent.advance move, h.chronicled.advance h.coherent move, fun milestone => ?_⟩
  obtain ⟨left, piece, right, deeds, outcome, hs, -, htrim, hstate, hstep⟩ := advance_account move
  have hc := h.coherent
  have hk := h.chronicled
  have ho := h.once milestone
  unfold Machine.Coherent at hc
  unfold Machine.Chronicled at hk
  rw [hs, Strand.works_append, Strand.works_ok] at hc hk ho
  have hpasses : Work.Passes env milestone piece deeds (Strand.works outcome.strands) := by
    rcases hstep with hstep | hstep
    · exact hstep.passes milestone
    · exact hstep.passes milestone
  have hnext := ho.replace hc hk hpasses
  rw [hstate]
  refine hnext.sublist ?_
  simpa using htrim.works_sublist

theorem Tracked.pass (h : machine.Tracked env) (move : machine.perform? env .pass = some next) :
    next.Tracked env := by
  obtain ⟨wake, -, rfl⟩ := pass_eq move
  have hr := h.chronicled.recorded
  exact ⟨h.coherent, ⟨⟨hr.disciplined, hr.alike, hr.nulls⟩, h.chronicled.begun,
    h.chronicled.fresh, h.chronicled.uncalled⟩, fun milestone =>
    ⟨(h.once milestone).nodup, (h.once milestone).declared, (h.once milestone).ahead⟩⟩

/-- What each move of a machine that is tracked preserves holds along a run. -/
theorem Run.preserves_tracked {P : Machine → Prop} (h : Run env steps first last)
    (hstep : ∀ {machine next : Machine} {address : Address}, machine.Tracked env →
      machine.perform? env (.advance address) = some next → P machine → P next)
    (hpass : ∀ {machine next : Machine}, machine.perform? env .pass = some next → P machine →
      P next) (ht : first.Tracked env) (hp : P first) : P last ∧ last.Tracked env := by
  refine h.preserves (P := fun machine => P machine ∧ machine.Tracked env) (fun move hm => ?_)
    (fun move hm => ?_) ⟨hp, ht⟩
  · exact ⟨hstep hm.2 move hm.1, hm.2.advance move⟩
  · exact ⟨hpass move hm.1, hm.2.pass move⟩

end Machine

theorem Executor.tracked_start {executor : Executor} {schema : Schema} {request : Request}
    {env : Environment} {machine : Machine}
    (h : executor.start schema request = .ok (env, machine)) : machine.Tracked env := by
  obtain ⟨operation, rootType, -, rfl⟩ := start_ok h
  exact Machine.tracked_start _ operation rootType request.root

end GraphQL
