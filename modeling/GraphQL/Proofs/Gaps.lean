import GraphQL.Proofs.Accounting
import GraphQL.Proofs.Conformance
import GraphQL.Proofs.Issues
import GraphQL.Proofs.Pruning

/-!
# Gaps

A value that is skipped leaves its place unfilled. An object is shown without such a member, but a
list is shown with a null for such an element, whatever the type of the elements is. This is the
only way for a null to get into a list whose elements do not admit one: along a run every place is
filled, or awaited by work that is left, or that of a value that was skipped.
-/

namespace GraphQL

/-- The type of the elements, if the type is that of a list. -/
def TypeRef.itemType? : TypeRef → Option TypeRef
  | nonNull inner => inner.itemType?
  | list item => some item
  | _ => none

/-- The value at a path, or its authorization, was skipped. -/
def Skipped (events : List Event) (path : Path) : Prop :=
  ∃ authorizing, .settled path authorizing .skip ∈ events

/-- What is written at a place agrees with the type that was declared there: a leaf, which is no
null, does not stand for a list, and the elements of a list are declared with their type. -/
def Event.WellTyped (events : List Event) : Event → Prop
  | wrote path (.leaf value) _ _ => value ≠ .null ∧
    ∃ type, .declared path type ∈ events ∧ type.itemType? = none
  | wrote path (.list length) _ _ => ∃ type itemType, .declared path type ∈ events ∧
    type.itemType? = some itemType ∧
      ∀ place < length, .declared (path.index place) itemType ∈ events
  | _ => True

/-- The data hold what was written to them. -/
structure State.Sourced (state : State) : Prop where
  typed : ∀ event ∈ state.events, event.WellTyped state.events
  leaves : ∀ path value, state.tree.data.at? path = some (.leaf value) →
    ∃ landed, .wrote path (.leaf value) false landed ∈ state.events
  elements : ∀ path place found, state.tree.data.at? (path.index place) = some found →
    ∃ length landed, .wrote path (.list length) false landed ∈ state.events ∧ place < length

/-- A value that is routed has settled. -/
def Work.Settled (past : List Event) : Work → Prop
  | resume site purpose value => .settled site.path purpose.isAuthorizing value ∈ past
  | _ => True

/-- Where nothing has been written yet, work is to fill the place, or its value was skipped. -/
structure Machine.Filling (machine : Machine) : Prop where
  sourced : machine.state.Sourced
  settled : ∀ piece ∈ Strand.works machine.task.strands, piece.Settled machine.state.events
  pending : Strand.Sound machine.task.strands → ∀ path,
    machine.state.tree.data.at? path = some .pending →
      path ∈ (Strand.works machine.task.strands).flatMap Work.owned ∨ Skipped machine.state.events path

theorem Skipped.append {events : List Event} {path : Path} (h : Skipped events path)
    (more : List Event) : Skipped (events ++ more) path := by
  obtain ⟨authorizing, hm⟩ := h
  exact ⟨authorizing, List.mem_append_left _ hm⟩

theorem Event.WellTyped.append {events : List Event} {event : Event} (h : event.WellTyped events)
    (more : List Event) : event.WellTyped (events ++ more) := by
  cases event with
  | wrote path entry propagating landed =>
    cases entry with
    | leaf value =>
      obtain ⟨hv, type, hd, ht⟩ := h
      exact ⟨hv, type, List.mem_append_left _ hd, ht⟩
    | list length =>
      obtain ⟨type, itemType, hd, ht, hitems⟩ := h
      exact ⟨type, itemType, List.mem_append_left _ hd, ht,
        fun place hp => List.mem_append_left _ (hitems place hp)⟩
    | null | object => trivial
  | _ => trivial

theorem Work.Settled.append {past : List Event} {piece : Work} (h : piece.Settled past)
    (more : List Event) : piece.Settled (past ++ more) := by
  cases piece with
  | resume => exact List.mem_append_left _ h
  | _ => trivial

namespace Shaped

variable {env : Environment} {site : Site} {content : Content}

theorem itemType_of_list {type itemType : TypeRef} {items : List Resolution}
    (h : of env site content type = list itemType items) : type.itemType? = some itemType := by
  induction type with
  | nonNull inner ih => exact ih h
  | list item _ =>
    simp only [of] at h
    split at h
    · cases h
    · obtain ⟨rfl, -⟩ := list.inj h
      rfl
  | resolved definition => exact absurd h (ofNamed_ne_list env site content definition itemType items)
  | late name =>
    simp only [of] at h
    split at h
    · exact absurd h (ofNamed_ne_list env site content _ itemType items)
    · cases h

theorem itemType_of_leaf {type : TypeRef} {output : Json}
    (h : of env site content type = leaf output) : type.itemType? = none := by
  induction type with
  | nonNull inner ih => exact ih h
  | list item _ =>
    simp only [of] at h
    split at h <;> cases h
  | resolved definition => rfl
  | late name => rfl

theorem ne_null_of_leaf {type : TypeRef} {output : Json}
    (h : of env site content type = leaf output) : output ≠ .null := by
  have hsuits := suits env site content type
  rw [h] at hsuits
  exact hsuits.1

end Shaped

/-- What is inside of a written entry is in a place that it reserves. -/
theorem Entry.Proper.opens {entry : Entry} (h : entry.Proper) {segment : PathSegment} {found : Slot}
    (hf : entry.slot.at? [segment] = some found) : entry.Opens segment := by
  cases entry with
  | null | leaf => cases segment <;> cases hf
  | object keys =>
    rw [h.slot_object] at hf
    cases segment with
    | index place => cases hf
    | key name =>
      obtain ⟨child, hg, -⟩ := Option.bind_eq_some_iff.mp hf
      obtain ⟨before, after, hsplit, -⟩ := Members.get?_eq_some hg
      have hmem : (name, child) ∈ keys.map fun key => (key, Slot.pending) := by simp [hsplit]
      obtain ⟨key, hk, he⟩ := List.mem_map.mp hmem
      exact (Prod.mk.inj he).1 ▸ hk
  | list length =>
    cases segment with
    | key name => cases hf
    | index place =>
      obtain ⟨child, hg, -⟩ := Option.bind_eq_some_iff.mp hf
      have hlt := (List.getElem?_eq_some_iff.mp hg).1
      rwa [List.length_replicate] at hlt

namespace ResultTree

variable {tree next : ResultTree} {path place : Path} {entry : Entry} {propagating : Bool}

/-- What is there after a write was there before it in some form, or is inside of the entry. -/
theorem Written.known (h : tree.Written path entry propagating next) {found : Slot}
    (hf : next.data.at? place = some found) :
    (∃ old, tree.data.at? place = some old) ∨
      propagating = false ∧ ∃ segment rest, place = path ++ segment :: rest ∧
        entry.slot.at? (segment :: rest) = some found := by
  have habove : ∀ {point : Path} {slot : Slot}, tree.data.at? point = some slot →
      place <+: point → ∃ old, tree.data.at? place = some old := by
    rintro point slot hp ⟨rest, rfl⟩
    cases rest with
    | nil => exact ⟨slot, by simpa using hp⟩
    | cons segment rest =>
      obtain ⟨hole, child, hc, -, -⟩ := Slot.at?_above hp
      exact ⟨_, hc⟩
  cases h with
  | dropped _ _ => exact .inl ⟨found, hf⟩
  | @placed changed swap =>
    by_cases ha : place <+: path
    · exact .inl (habove swap.at?_eq ha)
    by_cases hb : path <+: place
    · obtain ⟨rest, rfl⟩ := hb
      rw [swap.at?_below] at hf
      cases rest with
      | nil => exact absurd (by simp) ha
      | cons segment rest => exact .inr ⟨rfl, segment, rest, rfl, hf⟩
    · rw [swap.at?_apart hb ha] at hf
      exact .inl ⟨found, hf⟩
  | @collapsed point segment rest container changed there below admits swap null =>
    by_cases ha : place <+: point
    · exact .inl (habove swap.at?_eq ha)
    by_cases hb : point <+: place
    · obtain ⟨inside, rfl⟩ := hb
      rw [swap.at?_below] at hf
      cases inside with
      | nil => exact absurd (by simp) ha
      | cons segment inside => cases segment <;> cases hf
    · rw [swap.at?_apart hb ha] at hf
      exact .inl ⟨found, hf⟩

end ResultTree

theorem Site.eq_skip_of_route {site : Site} {value : FieldValue} (h : site.route value = .skipped) :
    value = .skip := by
  cases value with
  | skip => rfl
  | value shown => cases shown <;> cases h
  | errors errors => cases errors <;> cases h
  | list | error => cases h

namespace Work

open Strand

variable {env : Environment} {state next : State} {piece : Work} {deeds : List Deed}
  {outcome : Task}

/-- What a step does to the data: it leaves them alone and passes its places on, or it writes at
its only place and passes on those inside of the entry. -/
inductive Effect (state next : State) (piece : Work) (outcome : Task) : Prop where
  | idle (data : next.tree.data = state.tree.data)
      (owned : Sound outcome.strands → ∀ path ∈ piece.owned,
        path ∈ (works outcome.strands).flatMap Work.owned ∨ Skipped next.events path ∨
          state.tree.data.Dead path)
  | write {path : Path} {entry : Entry} {propagating : Bool} (owned : piece.owned = [path])
      (proper : entry.Proper)
      (tree : state.tree.Written path entry propagating (state.tree.write path entry propagating))
      (data : next.tree.data = (state.tree.write path entry propagating).data)
      (event : ∃ landed, .wrote path entry propagating landed ∈ next.events)
      (opens : ∀ segment, entry.Opens segment →
        path ++ [segment] ∈ (works outcome.strands).flatMap Work.owned)

/-- The same places are left to another piece of work. -/
theorem effect_quiet (hq : ∀ deed ∈ deeds, deed.IsQuiet) {left : Work}
    (ho : left.owned = piece.owned) :
    Effect state (state.performAll deeds) piece (.work left) := by
  refine .idle (State.alike_of_quiet hq state).data fun _ path hp => .inl ?_
  rwa [works_work, List.flatMap_singleton, ho]

theorem effect_null (hc : Coherent env state.tree [piece]) {site : Site}
    (ho : piece.owned = [site.path]) (hs : site ∈ piece.sites env) (errors : List ResponseError) :
    Effect state (state.performAll [.report errors, .write site.path .null site.type.isNonNull])
      piece outcome := by
  have hproper : Entry.null.Proper := trivial
  have htree : ((state.perform (.report errors)).tree.write site.path .null
      site.type.isNonNull).data = (state.tree.write site.path .null site.type.isNonNull).data := by
    rw [State.perform_report, ResultTree.report_write]
    rfl
  have hevent : ∃ landed, .wrote site.path .null site.type.isNonNull landed ∈
      ((state.perform (.report errors)).perform
        (.write site.path .null site.type.isNonNull)).events := by
    rw [State.events_write]
    exact ⟨_, List.mem_append_right _ (List.mem_singleton_self _)⟩
  exact .write ho hproper (written_site hc hs .null site.type.isNonNull) htree hevent
    fun segment hopens => absurd hopens id

/-- An object is written with the places of its fields, a list with those of its elements. -/
theorem effect_write (hc : Coherent env state.tree [piece]) {path : Path}
    (ho : piece.owned = [path])
    (entry : Entry) (hp : entry.Proper) {rest : List Deed}
    (hrest : ∀ state : State, (state.performAll rest).tree.data = state.tree.data)
    (hopens : ∀ segment, entry.Opens segment →
      path ++ [segment] ∈ (works outcome.strands).flatMap Work.owned) :
    Effect state (state.performAll (.write path entry false :: rest)) piece outcome := by
  have hopen : state.tree.data.Open path := hc.isOpen _ (by simp [ho])
  have hwritten : state.tree.Written path entry false (state.tree.write path entry false) :=
    ResultTree.written hc.regular hopen entry fun h => Bool.noConfusion h
  refine .write ho hp hwritten (hrest _) ?_ hopens
  obtain ⟨more, hmore⟩ := (state.perform (.write path entry false)).events_performAll rest
  rw [State.performAll_cons, hmore, State.events_write]
  exact ⟨_, List.mem_append_left _ (List.mem_append_right _ (List.mem_singleton_self _))⟩

theorem effect_shaped {site : Site} {content : Content}
    (hc : Coherent env state.tree [complete site content]) (shaped : Shaped) :
    Effect state (state.performAll (shaped.deeds env site)) (complete site content)
      (shaped.outcome env site) := by
  cases shaped with
  | null errors => exact effect_null hc rfl (List.mem_singleton_self _) errors
  | leaf output =>
    exact effect_write hc rfl (.leaf output) trivial (fun _ => rfl) fun _ hopens => absurd hopens id
  | list itemType items =>
    refine effect_write hc rfl (.list items.length) trivial (fun next => ?_)
      fun segment hopens => ?_
    · exact (congrArg ResultTree.data (State.tree_declareAll next _)).trans
        (ResultTree.recordAll_data _ _)
    · cases segment with
      | key name => cases hopens
      | index place =>
        rw [Shaped.outcome, works_dispatch, owned_settling]
        exact List.mem_map_of_mem (List.mem_range.mpr hopens)
  | object type value =>
    exact .idle (alike_asked site type value).data fun _ path hp => .inl hp
  | fault raised => exact .idle rfl fun hsound => absurd List.mem_cons_self (hsound raised)

/-- A step leaves no place behind that it has neither filled nor found skipped. -/
theorem Step.effect (h : Step env state piece deeds outcome) (hc : Coherent env state.tree [piece])
    (hs : piece.Settled state.events) : Effect state (state.performAll deeds) piece outcome := by
  cases h with
  | gatherFault | prepareFault | fieldFault =>
    exact .idle rfl fun hsound => absurd List.mem_cons_self (hsound _)
  | @gather frame selections serial groups hg =>
    have hproper : (Entry.object (groups.map FieldGroup.key)).Proper := Gathering.nodup_collect hg
    refine effect_write hc rfl _ hproper (fun _ => rfl) fun segment hopens => ?_
    cases segment with
    | index place => cases hopens
    | key key =>
      rw [owned_gathered]
      exact List.mem_map_of_mem hopens
  | @prepared frame phase prepared =>
    refine .idle rfl fun _ path hp => .inl ?_
    obtain ⟨entry, hm, rfl⟩ : ∃ entry ∈ prepared, entry.1.path = path := by
      simpa [owned] using hp
    rw [works_dispatch]
    exact List.mem_flatMap.mpr ⟨_, List.mem_map_of_mem hm, List.mem_singleton_self _⟩
  | prepareDeclare | prepareAdmit | fieldDeclare | fieldAdmit =>
    refine .idle rfl fun _ path hp => .inl ?_
    rwa [works_work, List.flatMap_singleton]
  | @prepare frame group rest prepared found type =>
    refine .idle (alike_fieldDeeds frame group found type).data fun _ path hp => .inl ?_
    rwa [works_work, List.flatMap_singleton, owned_prepared]
  | @field frame group found type =>
    exact .idle (alike_fieldDeeds frame group found type).data fun _ path hp => .inl hp
  | ready | queue | start | wake | settle | sleep | report =>
    refine effect_quiet (fun deed hd => ?_) rfl
    obtain rfl := List.mem_singleton.mp hd
    trivial
  | content | enter => exact effect_quiet (fun _ hd => absurd hd List.not_mem_nil) rfl
  | @skip site purpose value hr =>
    refine .idle rfl fun _ path hp => .inr (.inl ?_)
    obtain rfl := List.mem_singleton.mp hp
    obtain rfl := Site.eq_skip_of_route hr
    exact ⟨_, hs⟩
  | null | refuse => exact effect_null hc rfl (List.mem_singleton_self _) _
  | complete => exact effect_shaped hc _

theorem Prunes.effect (h : Prunes env state piece deeds outcome)
    (hc : Coherent env state.tree [piece]) :
    Effect state (state.performAll deeds) piece outcome := by
  cases h with
  | @prepare frame group rest prepared hp hd =>
    have hdead := dead_of_collapsed hc (List.mem_append_right _ List.mem_cons_self) hd
    refine .idle rfl fun _ path hpath => ?_
    rw [works_work, List.flatMap_singleton]
    rcases List.mem_append.mp hpath with hpath | hpath
    · exact .inl (List.mem_append_left _ hpath)
    · rcases List.mem_cons.mp hpath with rfl | hpath
      · exact .inr (.inr hdead)
      · exact .inl (List.mem_append_right _ hpath)
  | @field frame group hp hd =>
    refine .idle rfl fun _ path hpath => .inr (.inr ?_)
    obtain rfl := List.mem_singleton.mp hpath
    exact dead_of_collapsed hc (List.mem_singleton_self _) hd

theorem wellTyped_fieldDeeds (events : List Event) (frame : ObjectFrame) (group : FieldGroup)
    (found : FieldLookup) (type : TypeRef) :
    ∀ deed ∈ fieldDeeds env frame group found type, deed.Notes (Event.WellTyped events) :=
  forall_fieldDeeds trivial (fun _ _ => trivial) trivial

/-- The type of a site has been declared. -/
theorem declared_site (hc : Coherent env state.tree [piece]) (hr : state.Recorded) {site : Site}
    (hs : site ∈ piece.sites env) : .declared site.path site.type ∈ state.events := by
  have hd := (hc.declared piece (List.mem_singleton.mpr rfl) site hs).2
  obtain ⟨⟨other, type⟩, hf, rfl⟩ := Option.map_eq_some_iff.mp hd
  obtain rfl : other = site.path := by simpa using List.find?_some hf
  exact declared_of_type (hr.alike.types ▸ List.mem_of_find?_eq_some hf)

/-- What completing a value writes agrees with the types that have been declared after it. -/
theorem wellTyped_shaped (hc : Coherent env state.tree [piece]) (hr : state.Recorded) {site : Site}
    (hs : site ∈ piece.sites env) (content : Content) {shaped : Shaped}
    (hshaped : Shaped.of env site content site.type = shaped) :
    ∀ deed ∈ shaped.deeds env site,
      deed.Notes (Event.WellTyped (state.performAll (shaped.deeds env site)).events) := by
  have hdeclared : .declared site.path site.type ∈
      (state.performAll (shaped.deeds env site)).events := by
    obtain ⟨more, hmore⟩ := state.events_performAll (shaped.deeds env site)
    exact hmore ▸ List.mem_append_left _ (declared_site hc hr hs)
  intro deed hd
  cases shaped with
  | null errors =>
    rcases List.mem_cons.mp hd with rfl | hd
    · trivial
    · exact List.mem_singleton.mp hd ▸ fun _ => trivial
  | leaf output =>
    obtain rfl := List.mem_singleton.mp hd
    exact fun _ => ⟨Shaped.ne_null_of_leaf hshaped, _, hdeclared, Shaped.itemType_of_leaf hshaped⟩
  | list itemType items =>
    rcases List.mem_cons.mp hd with rfl | hd
    · refine fun _ => ⟨_, itemType, hdeclared, Shaped.itemType_of_list hshaped, fun place hp => ?_⟩
      have helement : site.item itemType place ∈
          Reference.elements site itemType items.length :=
        List.mem_map_of_mem (List.mem_range.mpr hp)
      exact state.declared_of_deed (List.mem_cons_of_mem _ (List.mem_map_of_mem helement))
    · obtain ⟨element, -, rfl⟩ := List.mem_map.mp hd
      trivial
  | object type value =>
    rw [Shaped.deeds, Shaped.asked] at hd
    split at hd
    · exact List.mem_singleton.mp hd ▸ trivial
    · cases hd
  | fault raised => cases hd

/-- What a step writes agrees with the types that have been declared after it. -/
theorem Step.wellTyped (h : Step env state piece deeds outcome)
    (hc : Coherent env state.tree [piece]) (hr : state.Recorded) :
    ∀ deed ∈ deeds, deed.Notes (Event.WellTyped (state.performAll deeds).events) := by
  cases h with
  | gatherFault | prepared | prepareFault | prepareAdmit | fieldFault | fieldAdmit | skip | content
  | enter => exact fun _ hd => absurd hd List.not_mem_nil
  | prepare | field => exact wellTyped_fieldDeeds _ _ _ _ _
  | gather =>
    intro deed hd
    obtain rfl := List.mem_singleton.mp hd
    exact fun _ => trivial
  | prepareDeclare | fieldDeclare | ready | queue | start | wake | settle | sleep | report =>
    intro deed hd
    obtain rfl := List.mem_singleton.mp hd
    trivial
  | null | refuse =>
    intro deed hd
    rcases List.mem_cons.mp hd with rfl | hd
    · trivial
    · obtain rfl := List.mem_singleton.mp hd
      exact fun _ => trivial
  | @complete site content => exact wellTyped_shaped hc hr (List.mem_singleton_self _) content rfl

/-- A value that a step leaves to be routed has settled in the step. -/
theorem Step.settled (h : Step env state piece deeds outcome) :
    ∀ left ∈ works outcome.strands, left.Settled (state.performAll deeds).events := by
  cases h with
  | gatherFault | prepareFault | fieldFault | skip | null | refuse => exact fun _ hl => nomatch hl
  | gather => exact forall_works_gathered trivial fun _ _ => trivial
  | prepared => exact forall_works_prepared fun _ _ => trivial
  | ready | settle =>
    refine forall_works_work ?_
    rw [State.performAll_cons, State.performAll_nil, State.events_note]
    exact List.mem_append_right _ (List.mem_singleton_self _)
  | complete => exact forall_works_shaped (fun _ _ _ _ _ _ => trivial) fun _ _ _ => trivial
  | _ => exact forall_works_work trivial

theorem Prunes.settled_left (h : Prunes env state piece deeds outcome) :
    ∀ left ∈ works outcome.strands, left.Settled (state.performAll deeds).events := by
  cases h with
  | prepare => exact forall_works_work trivial
  | field => exact fun _ hl => nomatch hl

theorem Prunes.wellTyped (h : Prunes env state piece deeds outcome) :
    ∀ deed ∈ deeds, deed.Notes (Event.WellTyped (state.performAll deeds).events) := by
  intro deed hd
  cases h <;> cases hd

/-- The data after a step hold what was written to them. -/
theorem Effect.sourced (h : Effect state next piece outcome) (hs : state.Sourced)
    {more : List Event} (hm : next.events = state.events ++ more)
    (ht : ∀ event ∈ more, event.WellTyped next.events) : next.Sourced := by
  have htyped : ∀ event ∈ next.events, event.WellTyped next.events := by
    intro event he
    rw [hm] at he
    rcases List.mem_append.mp he with he | he
    · exact hm ▸ (hs.typed event he).append more
    · exact ht event he
  have hleaf : ∀ path value, state.tree.data.at? path = some (.leaf value) →
      ∃ landed, .wrote path (.leaf value) false landed ∈ next.events := by
    intro path value hl
    obtain ⟨landed, he⟩ := hs.leaves path value hl
    exact ⟨landed, hm ▸ List.mem_append_left _ he⟩
  have helement : ∀ path place old, state.tree.data.at? (path.index place) = some old →
      ∃ length landed, .wrote path (.list length) false landed ∈ next.events ∧ place < length := by
    intro path place old ho
    obtain ⟨length, landed, he, hp⟩ := hs.elements path place old ho
    exact ⟨length, landed, hm ▸ List.mem_append_left _ he, hp⟩
  cases h with
  | idle data _ =>
    exact ⟨htyped, fun path value hl => hleaf path value (data ▸ hl),
      fun path place found hf => helement path place found (data ▸ hf)⟩
  | @write path entry propagating owned proper tree data event opens =>
    obtain ⟨landed, hevent⟩ := event
    refine ⟨htyped, fun other value hl => ?_, fun other place found hf => ?_⟩
    · rw [data] at hl
      rcases tree.at?_cases hl with ⟨hl, -⟩ | ⟨hole, child, hfill⟩ | ⟨rfl, rest, rfl, hrest⟩ | ⟨-, hnull⟩
      · exact hleaf other value hl
      · cases hole <;> cases hfill
      · cases rest with
        | cons segment rest => cases (proper.eq_pending hrest).2
        | nil =>
          cases entry with
          | leaf own =>
            obtain rfl := Slot.leaf.inj (Option.some.inj hrest)
            exact ⟨landed, by rwa [List.append_nil]⟩
          | null | object | list => cases hrest
      · cases hnull
    · rw [data] at hf
      rcases tree.known hf with ⟨old, ho⟩ | ⟨rfl, segment, rest, hpath, hinside⟩
      · exact helement other place old ho
      · obtain ⟨rfl, -⟩ := proper.eq_pending hinside
        obtain ⟨rfl, hsegment⟩ := List.append_inj' hpath rfl
        obtain rfl := List.singleton_inj.mp hsegment
        have hopens := proper.opens hinside
        cases entry with
        | list length => exact ⟨length, landed, hevent, hopens⟩
        | null | leaf | object => cases hopens

/-- A place that is unfilled after a step was passed on, lies elsewhere or was skipped. -/
theorem Effect.pending (h : Effect state next piece outcome) (hsound : Sound outcome.strands)
    {path : Path} (hp : next.tree.data.at? path = some .pending) :
    path ∈ (works outcome.strands).flatMap Work.owned ∨ Skipped next.events path ∨
      state.tree.data.at? path = some .pending ∧ path ∉ piece.owned := by
  cases h with
  | idle data owned =>
    rw [data] at hp
    by_cases ho : path ∈ piece.owned
    · rcases owned hsound path ho with hleft | hskipped | hdead
      · exact .inl hleft
      · exact .inr (.inl hskipped)
      · rw [hdead.at?_eq_none] at hp
        cases hp
    · exact .inr (.inr ⟨hp, ho⟩)
  | @write place entry propagating owned proper tree data event opens =>
    rw [data] at hp
    rcases tree.at?_cases hp with ⟨hp, hne⟩ | ⟨hole, child, hfill⟩ | ⟨rfl, rest, rfl, hrest⟩ | ⟨-, hnull⟩
    · exact .inr (.inr ⟨hp, fun ho => hne (List.mem_singleton.mp (owned ▸ ho))⟩)
    · cases hole <;> cases hfill
    · cases rest with
      | nil => cases entry <;> cases hrest
      | cons segment rest =>
        obtain ⟨rfl, -⟩ := proper.eq_pending hrest
        exact .inl (opens segment (proper.opens hrest))
    · cases hnull

end Work

namespace Machine

variable {env : Environment} {machine next first last : Machine} {steps : Nat} {address : Address}

theorem filling_start (operation : Operation) (rootType : TypeDef) (root : Json) :
    (Machine.start operation rootType root).Filling := by
  have hempty : ∀ path found, (Machine.start operation rootType root).state.tree.data.at? path =
      some found → path = [] ∧ found = .pending := by
    intro path found hf
    cases path with
    | nil => exact ⟨rfl, (Option.some.inj hf).symm⟩
    | cons segment rest => cases segment <;> cases hf
  refine ⟨⟨fun _ he => (nomatch he), fun path value hl => ?_, fun path place found hf => ?_⟩,
    fun piece hm => ?_, fun _ path hp => .inl ?_⟩
  · cases (hempty path _ hl).2
  · exact absurd (hempty _ _ hf).1 (by simp [Path.index])
  · obtain rfl := List.mem_singleton.mp hm
    trivial
  · obtain rfl := (hempty path _ hp).1
    exact List.mem_singleton_self _

theorem Filling.advance (h : machine.Filling) (ht : machine.Tracked env)
    (move : machine.perform? env (.advance address) = some next) : next.Filling := by
  obtain ⟨left, piece, right, deeds, outcome, hs, -, htrim, hstate, hk⟩ := advance_account move
  have hc := ht.coherent
  have hrecorded := ht.chronicled.recorded
  unfold Machine.Coherent at hc
  have hsettled := h.settled
  have hpending := h.pending
  rw [hs] at hsettled
  rw [hs, Strand.works_append, Strand.works_ok] at hc hpending
  have hpiece : piece.Settled machine.state.events := hsettled piece (by simp)
  have heffect : Work.Effect machine.state (machine.state.performAll deeds) piece outcome := by
    rcases hk with hk | hk
    · exact hk.effect hc.single hpiece
    · exact hk.effect hc.single
  have htyped : ∀ deed ∈ deeds,
      deed.Notes (Event.WellTyped (machine.state.performAll deeds).events) := by
    rcases hk with hk | hk
    · exact hk.wellTyped hc.single hrecorded
    · exact hk.wellTyped
  have hleft : ∀ other ∈ Strand.works outcome.strands,
      other.Settled (machine.state.performAll deeds).events := by
    rcases hk with hk | hk
    · exact hk.settled
    · exact hk.settled_left
  obtain ⟨more, hmore, hnoted⟩ := machine.state.performAll_notes htyped
  rw [← hstate] at heffect hleft hmore hnoted
  refine ⟨heffect.sourced h.sourced hmore hnoted, ?_, fun hsound path hp => ?_⟩
  · exact htrim.forall_works (fun other ho => hmore ▸ (hsettled other ho).append more) hleft
  · -- where no fault is left, nothing was trimmed away
    have hstrands := htrim.eq_of_sound hsound
    rw [hstrands] at hsound ⊢
    have hmiddle := (Strand.sound_append.mp (Strand.sound_append.mp hsound).1).2
    simp only [Strand.works_append, List.flatMap_append, List.mem_append]
    rcases heffect.pending hmiddle hp with hpassed | hskipped | ⟨hold, hnot⟩
    · exact .inl (.inl (.inr hpassed))
    · exact .inr hskipped
    · rcases hpending (hsound.work piece) path hold with howned | hskipped
      · rw [List.flatMap_append, List.flatMap_cons, List.mem_append, List.mem_append] at howned
        rcases howned with howned | howned | howned
        · exact .inl (.inl (.inl howned))
        · exact absurd howned hnot
        · exact .inl (.inr howned)
      · exact .inr (hmore ▸ hskipped.append more)

theorem Run.filling (h : Run env steps first last) (ht : first.Tracked env) (hf : first.Filling) :
    last.Filling ∧ last.Tracked env := by
  refine h.preserves_tracked (fun ht move hf => hf.advance ht move) (fun move hf => ?_) ht hf
  obtain ⟨wake, -, rfl⟩ := pass_eq move
  exact ⟨⟨hf.sourced.typed, hf.sourced.leaves, hf.sourced.elements⟩, hf.settled, hf.pending⟩

end Machine

section Events

variable {events : List Event} {path above : Path} {segment : PathSegment} {type other : TypeRef}

/-- Each place on the way to one whose type has been recorded was reserved. -/
theorem Disciplined.reserves_above (h : Disciplined events) (hd : Declares events path)
    (hp : above ++ [segment] <+: path) : Reserves events above segment := by
  obtain rfl | ⟨container, last, rfl⟩ := List.eq_nil_or_concat path
  · simp at hp
  rw [List.concat_eq_append] at hd hp
  obtain ⟨entry, landed, hm, hopens⟩ := h.reserves hd
  rcases List.prefix_concat_iff.mp hp with he | hp
  · obtain ⟨rfl, hs⟩ := List.append_inj' he rfl
    obtain rfl := List.singleton_inj.mp hs
    exact ⟨entry, landed, hm, hopens⟩
  · obtain ⟨past, later, rfl⟩ := List.append_of_mem hm
    have hfollows := h.follows past _ later rfl
    exact h.reserves ((hfollows.typed container rfl _ hp (by simp)).append _)

theorem Disciplined.declared_unique (h : Disciplined events) (ht : .declared path type ∈ events)
    (ho : .declared path other ∈ events) : other = type :=
  (Event.declared.inj (eq_of_nodup_filterMap h.declared ht ho rfl rfl)).2

/-- The types that were recorded are those of the tree. -/
theorem type_of_declared (h : .declared path type ∈ events) :
    (path, type) ∈ (replayed events).types := by
  induction events using List.reverseRecOn with
  | nil => cases h
  | append_singleton events event ih =>
    rw [replayed_append_singleton]
    rcases List.mem_append.mp h with h | h
    · have hold := ih h
      cases event with
      | declared => exact List.mem_cons_of_mem _ hold
      | wrote own entry propagating landed =>
        obtain ⟨data, hw⟩ := (replayed events).write_eq own entry propagating
        rw [ResultTree.replay, hw]
        exact hold
      | opened | called | authorized | started | slept | woke | settled => exact hold
    · obtain rfl := List.mem_singleton.mp h
      exact List.mem_cons_self

end Events

namespace State

variable {state : State} {path : Path} {type : TypeRef}

theorem Recorded.declaredType?_eq (h : state.Recorded) (hd : .declared path type ∈ state.events) :
    state.tree.declaredType? path = some type := by
  have hm : (path, type) ∈ state.tree.types := h.alike.types ▸ type_of_declared hd
  unfold ResultTree.declaredType?
  cases hf : state.tree.types.find? fun entry => entry.1 = path with
  | none => simpa using List.find?_eq_none.mp hf _ hm
  | some entry =>
    obtain ⟨other, own⟩ := entry
    obtain rfl : other = path := by simpa using List.find?_some hf
    have hown : .declared other own ∈ state.events :=
      declared_of_type (h.alike.types ▸ List.mem_of_find?_eq_some hf)
    exact congrArg some (h.disciplined.declared_unique hd hown)

/-- Where the data hold an array at a place that was declared as a list, the tree holds a list. -/
theorem Sourced.list_of_render (h : state.Sourced) (hr : state.Recorded)
    (hregular : state.tree.Regular) (hd : .declared path type ∈ state.events)
    {itemType : TypeRef} (ht : type.itemType? = some itemType) {items : List Json}
    (ha : state.tree.data.render.at? path = some (.arr items)) :
    ∃ slots : List Slot, state.tree.data.at? path = some (.list slots) ∧
      items = slots.map Slot.render := by
  have hleaf : ∀ value, state.tree.data.at? path ≠ some (.leaf value) := by
    intro value hl
    obtain ⟨landed, hw⟩ := h.leaves path value hl
    obtain ⟨-, other, ho, hnone⟩ := h.typed _ hw
    obtain rfl := hr.disciplined.declared_unique hd ho
    rw [ht] at hnone
    cases hnone
  rcases Slot.at?_render hregular.distinct ha with
    ⟨found, hf, hrender⟩ | ⟨above, segment, rest, value, rfl, hl⟩
  · cases found with
    | pending | null | object => cases hrender
    | leaf value => exact absurd hf (hleaf value)
    | list slots =>
      refine ⟨slots, hf, ?_⟩
      rw [← Slot.renderItems_eq]
      exact (Json.arr.inj hrender).symm
  · -- what lies above was written as a container, since the place was reserved from there
    obtain ⟨landed, hw⟩ := h.leaves above value hl
    have hprefix : above ++ [segment] <+: above ++ segment :: rest := ⟨rest, by simp⟩
    obtain ⟨entry, dropped, hm, hopens⟩ := hr.disciplined.reserves_above ⟨_, hd⟩ hprefix
    obtain ⟨-, rfl, -, -⟩ := Event.wrote.inj (hr.disciplined.written_unique hw hm rfl rfl)
    exact absurd hopens id

/-- A null among elements that do not admit null stands for one that has not been written. -/
theorem Sourced.pending_of_null (h : state.Sourced) (hr : state.Recorded)
    (hregular : state.tree.Regular) (hd : .declared path type ∈ state.events)
    {itemType : TypeRef} (ht : type.itemType? = some itemType) (hn : itemType.isNonNull = true)
    {place : Nat} {found : Slot} (hf : state.tree.data.at? (path.index place) = some found)
    (hnull : found.render = .null) : found = .pending := by
  cases found with
  | pending => rfl
  | null =>
    obtain ⟨length, landed, hw, hp⟩ := h.elements path place _ hf
    obtain ⟨other, own, ho, hown, helements⟩ := h.typed _ hw
    obtain rfl := hr.disciplined.declared_unique hd ho
    obtain rfl : own = itemType := Option.some.inj (hown.symm.trans ht)
    have hrequired := ResultTree.isRequired_of_declared (hr.declaredType?_eq (helements place hp))
    rw [hregular.nulls _ hf, hn] at hrequired
    cases hrequired
  | leaf value =>
    obtain ⟨landed, hw⟩ := h.leaves _ value hf
    exact absurd hnull (h.typed _ hw).1
  | object members => cases hnull
  | list items => cases hnull

end State

namespace Executor

/-- **Only a skipped element leaves a null where none is admitted.** In every run that ends well,
whatever the values of a list settle to and in whatever order: if the response has an array where a
list was declared whose elements do not admit null, every null in it stands for an element that was
skipped, or whose authorization was. -/
theorem null_elements_skipped (executor : Executor) (schema : Schema) (request : Request)
    (execution : Execution) (h : executor.Reaches schema request (.ok execution)) {path : Path}
    {listType itemType : TypeRef} {items : List Json}
    (hd : .declared path listType ∈ execution.events) (ht : listType.itemType? = some itemType)
    (hn : itemType.isNonNull = true)
    (ha : execution.response.data.at? path = some (.arr items)) :
    ∀ place, items[place]? = some .null → Skipped execution.events (path.index place) := by
  intro place hnull
  cases h with
  | @ended env machine last steps _ hs hr he =>
    obtain ⟨hdone, rfl⟩ := Machine.execution_of_result he
    have hfilling : machine.Filling := by
      obtain ⟨operation, rootType, -, rfl⟩ := start_ok hs
      exact Machine.filling_start operation rootType request.root
    obtain ⟨hlast, htracked⟩ := hr.filling (tracked_start hs) hfilling
    have hrecorded := htracked.chronicled.recorded
    have hregular := htracked.coherent.regular
    obtain ⟨slots, hslots, rfl⟩ :=
      hlast.sourced.list_of_render hrecorded hregular hd ht ha
    obtain ⟨found, hfound, hrender⟩ := List.getElem?_map ▸ hnull |> Option.map_eq_some_iff.mp
    have helement : last.state.tree.data.at? (path.index place) = some found := by
      rw [Path.index, Slot.at?_append, hslots]
      simp [Slot.at?, hfound]
    obtain rfl :=
      hlast.sourced.pending_of_null hrecorded hregular hd ht hn helement hrender
    -- no work is left that could fill the place
    have hleft := hlast.pending
    rw [hdone] at hleft
    exact (hleft (Strand.sound_map_ok []) _ helement).resolve_left List.not_mem_nil

end Executor

/-- The path and the type of a type that was recorded. -/
def Event.recorded? : Event → Option (Path × TypeRef)
  | declared path type => some (path, type)
  | _ => none

theorem Event.recorded?_eq_some {event : Event} {path : Path} {type : TypeRef} :
    event.recorded? = some (path, type) ↔ event = .declared path type := by
  cases event <;> simp [recorded?]

namespace Sample

/-- Numbers, none of which may be null. -/
def numerals : Schema where
  queryType := some "Query"
  types := [.object { name := "Query", fields :=
      [{ name := "numbers", type := .list (.required "Int") }] },
    .scalar { name := "Int" }]

/-- One number and one that is skipped. -/
def gap : Executor where
  registry := {
    resolvers := [("Query.numbers", { resolve := fun _ _ _ _ => .ready (.list
      [.ready (.value (.int 1)), .ready .skip]) })] }

def countUp : Request where
  document := { operations := [{ selections := [.field { name := "numbers" }] }] }

theorem execute_gap :
    (gap.execute numerals countUp 30).map (Except.map fun execution =>
      (execution.response.data, execution.response.errors,
        execution.events.filterMap Event.recorded?)) =
      some (.ok (.obj [("numbers", .arr [.int 1, .null])], [],
        [([.key "numbers"], .list (.required "Int")),
          ([.key "numbers", .index 0], .required "Int"),
          ([.key "numbers", .index 1], .required "Int")])) := by
  cbv

theorem reaches_gap :
    ∃ execution, gap.Reaches numerals countUp (.ok execution) ∧
      .declared [.key "numbers"] (.list (.required "Int")) ∈ execution.events ∧
      execution.response.data = .obj [("numbers", .arr [.int 1, .null])] ∧
      execution.response.errors = [] := by
  obtain ⟨execution, hreaches, hseen⟩ := Executor.Reaches.of_execute execute_gap
  obtain ⟨hdata, hseen⟩ := Prod.mk.inj hseen
  obtain ⟨herrors, hrecorded⟩ := Prod.mk.inj hseen
  have hfirst : ([.key "numbers"], .list (.required "Int")) ∈
      execution.events.filterMap Event.recorded? := hrecorded ▸ List.mem_cons_self
  obtain ⟨event, hm, he⟩ := List.mem_filterMap.mp hfirst
  obtain rfl := Event.recorded?_eq_some.mp he
  exact ⟨execution, hreaches, hm, hdata, herrors⟩

end Sample

namespace Executor

/-- The theorem at a list of numbers: the null in it stands for the number that was skipped. -/
theorem gap_skipped :
    ∃ execution, Sample.gap.Reaches Sample.numerals Sample.countUp (.ok execution) ∧
      execution.response.data.at? [.key "numbers", .index 1] = some .null ∧
      Skipped execution.events [.key "numbers", .index 1] := by
  obtain ⟨execution, hreaches, hdeclared, hdata, -⟩ := Sample.reaches_gap
  have harray : execution.response.data.at? [.key "numbers"] = some (.arr [.int 1, .null]) := by
    rw [hdata]
    rfl
  refine ⟨execution, hreaches, by rw [hdata]; rfl, ?_⟩
  exact null_elements_skipped _ _ _ execution hreaches hdeclared rfl rfl harray 1 rfl

/-- A list whose elements do not admit null can hold one, without an error: that of a number which
is skipped. -/
theorem gap_holds_null :
    ∃ execution, Sample.gap.Reaches Sample.numerals Sample.countUp (.ok execution) ∧
      ∃ path listType itemType items, .declared path listType ∈ execution.events ∧
        listType.itemType? = some itemType ∧ itemType.isNonNull = true ∧
        execution.response.data.at? path = some (.arr items) ∧ .null ∈ items ∧
        execution.response.errors = [] := by
  obtain ⟨execution, hreaches, hdeclared, hdata, herrors⟩ := Sample.reaches_gap
  refine ⟨execution, hreaches, [.key "numbers"], _, _, [.int 1, .null], hdeclared, rfl, rfl, ?_,
    by simp, herrors⟩
  rw [hdata]
  rfl

end Executor

end GraphQL
