import GraphQL.Proofs.Refinement

/-!
# The discipline of a history

What the events of an execution say about its result tree. A write that finds no place is dropped
without a word, so nothing but the order of the events keeps an update from being lost: every path
is declared, called and written once, by work that came to own it when its container was written,
and a plain write is dropped only below a container that a propagating write has collapsed.
-/

namespace GraphQL

namespace Event

/-- The path of a recorded type. -/
def declared? : Event → Option Path
  | declared path _ => some path
  | _ => none

/-- The path of a write, a plain or a propagating one. -/
def written? : Event → Option Path
  | wrote path _ _ _ => some path
  | _ => none

/-- The path of a call of a resolver. -/
def called? : Event → Option Path
  | called path _ _ _ _ _ => some path
  | _ => none

/-- The path of a plain write that found no place. -/
def dropped? : Event → Option Path
  | wrote path _ false false => some path
  | _ => none

/-- True if a type is recorded, a value written or a resolver called at a place. -/
def Concerns (event : Event) (path : Path) : Prop :=
  event.declared? = some path ∨ event.written? = some path ∨ event.called? = some path

end Event

/-- True if an object or list that is written holds such a place. -/
def Entry.Opens : Entry → PathSegment → Prop
  | object keys, .key name => name ∈ keys
  | list length, .index place => place < length
  | _, _ => False

/-- The tree after an event. -/
def ResultTree.replay (tree : ResultTree) : Event → ResultTree
  | .declared path type => tree.record path type
  | .wrote path entry propagating _ => tree.write path entry propagating
  | _ => tree

/-- The tree after events, from the first to the last; the errors are not among them. -/
def replayed (events : List Event) : ResultTree := events.foldl ResultTree.replay {}

/-- The write of a container, which may have been dropped, reserves a place in it. -/
def Reserves (events : List Event) (container : Path) (segment : PathSegment) : Prop :=
  ∃ entry landed, .wrote container entry false landed ∈ events ∧ entry.Opens segment

def Declares (events : List Event) (path : Path) : Prop := ∃ type, .declared path type ∈ events

/-- A propagating write has turned the value at a path, which was not null, into a null. -/
def Collapses (events : List Event) (path : Path) : Prop :=
  ∃ past source entry landed later, events = past ++ .wrote source entry true landed :: later ∧
    (replayed past).data.at? path ≠ some .null ∧
    (replayed (past ++ [.wrote source entry true landed])).data.at? path = some .null

/-- What holds of an event by the events before it. -/
structure Event.Follows (past : List Event) (event : Event) : Prop where
  /-- A place that is declared or written was reserved by the write of its container. -/
  reserved : ∀ container segment, event.declared? = some (container ++ [segment]) ∨
    event.written? = some (container ++ [segment]) → Reserves past container segment
  /-- The types of a place that is written and of its containers were recorded. -/
  typed : ∀ path, event.written? = some path → ∀ place, place <+: path → place ≠ [] →
    Declares past place
  /-- A write lands as the tree has it. -/
  landed : ∀ path entry propagating landed, event = .wrote path entry propagating landed →
    landed = ((replayed past).write? path entry propagating).isSome
  /-- A plain write is dropped only inside of a container that a propagating write collapsed. -/
  kept : ∀ path, event.dropped? = some path → ∃ container, container <+: path ∧
    container ≠ path ∧ (replayed past).data.at? container = some .null ∧ Collapses past container

/-- The events of an execution in order: no path is declared, written or called for a second time,
and each event follows from those before it. -/
structure Disciplined (events : List Event) : Prop where
  declared : (events.filterMap Event.declared?).Nodup
  written : (events.filterMap Event.written?).Nodup
  called : (events.filterMap Event.called?).Nodup
  follows : ∀ past event later, events = past ++ event :: later → event.Follows past

section Events

variable {events more : List Event} {event : Event} {path container : Path} {segment : PathSegment}

theorem Reserves.append (h : Reserves events container segment) (more : List Event) :
    Reserves (events ++ more) container segment := by
  obtain ⟨entry, landed, hm, ho⟩ := h
  exact ⟨entry, landed, List.mem_append_left _ hm, ho⟩

theorem Declares.append (h : Declares events path) (more : List Event) :
    Declares (events ++ more) path := by
  obtain ⟨type, hm⟩ := h
  exact ⟨type, List.mem_append_left _ hm⟩

theorem Collapses.append (h : Collapses events path) (more : List Event) :
    Collapses (events ++ more) path := by
  obtain ⟨past, source, entry, landed, later, rfl, hb, ha⟩ := h
  exact ⟨past, source, entry, landed, later ++ more, by simp, hb, ha⟩

theorem replayed_append_singleton (events : List Event) (event : Event) :
    replayed (events ++ [event]) = (replayed events).replay event := by
  simp [replayed]

/-- What is read off once is read off by one event. -/
theorem eq_of_nodup_filterMap {α : Type} {read : Event → Option α} {value : α} {other : Event}
    (hn : (events.filterMap read).Nodup) (he : event ∈ events) (ho : other ∈ events)
    (hr : read event = some value) (hs : read other = some value) : other = event := by
  obtain ⟨past, later, rfl⟩ := List.append_of_mem he
  rw [List.filterMap_append, List.filterMap_cons_some hr] at hn
  have hnot := (List.nodup_cons.mp (List.perm_middle.nodup_iff.mp hn)).1
  rcases List.mem_append.mp ho with ho | ho
  · exact absurd (List.mem_append_left _ (List.mem_filterMap.mpr ⟨other, ho, hs⟩)) hnot
  · rcases List.mem_cons.mp ho with rfl | ho
    · rfl
    · exact absurd (List.mem_append_right _ (List.mem_filterMap.mpr ⟨other, ho, hs⟩)) hnot

namespace Disciplined

theorem nil : Disciplined [] where
  declared := .nil
  written := .nil
  called := .nil
  follows past event later he := by simp at he

/-- An event that follows from the events so far and repeats none of them. -/
theorem concat (h : Disciplined events)
    (hd : ∀ path, event.declared? = some path → path ∉ events.filterMap Event.declared?)
    (hw : ∀ path, event.written? = some path → path ∉ events.filterMap Event.written?)
    (hc : ∀ path, event.called? = some path → path ∉ events.filterMap Event.called?)
    (hf : event.Follows events) : Disciplined (events ++ [event]) := by
  have hnodup : ∀ read : Event → Option Path, (events.filterMap read).Nodup →
      (∀ path, read event = some path → path ∉ events.filterMap read) →
        ((events ++ [event]).filterMap read).Nodup := by
    intro read hn ho
    rw [List.filterMap_append]
    cases hr : read event with
    | none => simpa [hr] using hn
    | some path =>
      rw [List.filterMap_cons_some hr, List.filterMap_nil]
      exact (List.perm_append_singleton _ _).nodup_iff.mpr (List.nodup_cons.mpr ⟨ho path hr, hn⟩)
  refine ⟨hnodup _ h.declared hd, hnodup _ h.written hw, hnodup _ h.called hc, ?_⟩
  intro past other later he
  rcases List.eq_nil_or_concat later with rfl | ⟨later, last, rfl⟩
  · obtain ⟨rfl, hl⟩ := List.append_inj' he rfl
    obtain rfl := List.singleton_inj.mp hl
    exact hf
  · have hsplit : events ++ [event] = (past ++ other :: later) ++ [last] := by simpa using he
    obtain ⟨hpast, -⟩ := List.append_inj' hsplit rfl
    exact h.follows past other later hpast

/-- A place whose type has been recorded was reserved. -/
theorem reserves (h : Disciplined events) (hd : Declares events (container ++ [segment])) :
    Reserves events container segment := by
  obtain ⟨type, hm⟩ := hd
  obtain ⟨past, later, rfl⟩ := List.append_of_mem hm
  exact ((h.follows past _ later rfl).reserved container segment (.inl rfl)).append _

/-- A path is written by one event. -/
theorem written_unique (h : Disciplined events) {other : Event} (he : event ∈ events)
    (ho : other ∈ events) (hw : event.written? = some path) (hp : other.written? = some path) :
    other = event := eq_of_nodup_filterMap h.written he ho hw hp

end Disciplined

/-- Nothing has happened at a place or inside of it, but it is reserved. -/
structure Fresh (events : List Event) (path : Path) : Prop where
  untouched : ∀ event ∈ events, ∀ place, event.Concerns place → ¬ path <+: place
  reserved : ∀ container segment, path = container ++ [segment] →
    Reserves events container segment
  typed : ∀ place, place <+: path → place ≠ path → place ≠ [] → Declares events place

/-- The type of the value at a place is known, and neither it nor anything inside is written. -/
structure Begun (events : List Event) (path : Path) : Prop where
  inside : ∀ event ∈ events, ∀ place, event.Concerns place → path <+: place → place = path
  unwritten : ∀ event ∈ events, event.written? ≠ some path
  typed : ∀ place, place <+: path → place ≠ [] → Declares events place

/-- No resolver has been called at a place. -/
def Uncalled (events : List Event) (path : Path) : Prop :=
  ∀ event ∈ events, event.called? ≠ some path

theorem Fresh.uncalled (h : Fresh events path) : Uncalled events path := fun event he hc =>
  h.untouched event he path (.inr (.inr hc)) (List.prefix_refl path)

theorem Uncalled.append (h : Uncalled events path) (hm : Uncalled more path) :
    Uncalled (events ++ more) path := fun event he =>
  (List.mem_append.mp he).elim (h event) (hm event)

/-- Later events that lie outside of a place do not change what there is to know about it. -/
theorem Fresh.append (h : Fresh events path)
    (hm : ∀ event ∈ more, ∀ place, event.Concerns place → ¬ path <+: place) :
    Fresh (events ++ more) path where
  untouched event he := (List.mem_append.mp he).elim (h.untouched event) (hm event)
  reserved container segment hp := (h.reserved container segment hp).append more
  typed place hp hne hn := (h.typed place hp hne hn).append more

theorem Begun.append (h : Begun events path)
    (hm : ∀ event ∈ more, ∀ place, event.Concerns place → ¬ path <+: place) :
    Begun (events ++ more) path where
  inside event he place hc hp := (List.mem_append.mp he).elim
    (fun he => h.inside event he place hc hp) (fun he => absurd hp (hm event he place hc))
  unwritten event he hw := (List.mem_append.mp he).elim (fun he => h.unwritten event he hw)
    (fun he => hm event he path (.inr (.inl hw)) (List.prefix_refl path))
  typed place hp hn := (h.typed place hp hn).append more

/-- A place begins with the record of its type. -/
theorem Fresh.begin (h : Fresh events path) (type : TypeRef) :
    Begun (events ++ [.declared path type]) path where
  inside event he place hc hp := by
    rcases List.mem_append.mp he with he | he
    · exact absurd hp (h.untouched event he place hc)
    · obtain rfl := List.mem_singleton.mp he
      rcases hc with hc | hc | hc
      · exact (Option.some.inj hc).symm
      · cases hc
      · cases hc
  unwritten event he hw := by
    rcases List.mem_append.mp he with he | he
    · exact h.untouched event he path (.inr (.inl hw)) (List.prefix_refl path)
    · obtain rfl := List.mem_singleton.mp he
      cases hw
  typed place hp hn := by
    by_cases hne : place = path
    · subst hne
      exact ⟨type, by simp⟩
    · exact (h.typed place hp hne hn).append _

/-- The write of a container leaves the places inside of it fresh. -/
theorem Begun.child (h : Begun events path) (entry : Entry) (segment : PathSegment)
    (ho : entry.Opens segment) (landed : Bool) :
    Fresh (events ++ [.wrote path entry false landed]) (path ++ [segment]) where
  untouched event he place hc hp := by
    have hplace : place = path := by
      rcases List.mem_append.mp he with he | he
      · exact h.inside event he place hc ((List.prefix_append _ _).trans hp)
      · obtain rfl := List.mem_singleton.mp he
        rcases hc with hc | hc | hc
        · cases hc
        · exact (Option.some.inj hc).symm
        · cases hc
    subst hplace
    exact Path.not_child_prefix place segment hp
  reserved container last hl := by
    obtain ⟨rfl, hs⟩ := List.append_inj' hl rfl
    obtain rfl := List.singleton_inj.mp hs
    exact ⟨entry, landed, by simp, ho⟩
  typed place hp hne hn := by
    rcases List.prefix_concat_iff.mp hp with rfl | hp
    · exact absurd rfl hne
    · exact (h.typed place hp hn).append _

end Events

namespace ResultTree.Alike

variable {a b : ResultTree}

theorem record (h : Alike a b) (path : Path) (type : TypeRef) :
    Alike (a.record path type) (b.record path type) :=
  ⟨h.data, congrArg ((path, type) :: ·) h.types⟩

/-- Whether a write lands, and what it makes of the tree, does not depend on the errors. -/
theorem write? (h : Alike a b) (path : Path) (entry : Entry) (propagating : Bool) :
    (a.write? path entry propagating).isSome = (b.write? path entry propagating).isSome ∧
      Alike (a.write path entry propagating) (b.write path entry propagating) := by
  obtain ⟨_, _, errors⟩ := a
  obtain ⟨slot, declared, others⟩ := b
  obtain ⟨hd, ht⟩ := h
  dsimp only at hd ht
  subst hd ht
  have hpoint : (ResultTree.mk slot declared errors).collapsePoint path =
    (ResultTree.mk slot declared others).collapsePoint path := rfl
  cases propagating with
  | false =>
    simp only [write, ResultTree.write?, place?, Bool.false_eq_true, if_false]
    cases Slot.update? _ path slot <;> exact ⟨rfl, rfl, rfl⟩
  | true =>
    simp only [write, ResultTree.write?, collapse?, if_true, hpoint]
    cases ResultTree.collapsePoint _ path with
    | nil => exact ⟨rfl, rfl, rfl⟩
    | cons segment rest =>
      dsimp only
      cases Slot.update? _ (segment :: rest) slot <;> exact ⟨rfl, rfl, rfl⟩

end ResultTree.Alike

theorem Event.written_of_dropped {event : Event} {path : Path} (h : event.dropped? = some path) :
    event.written? = some path := by
  unfold dropped? at h
  split at h
  · exact h
  · cases h

theorem Event.Follows.idle {past : List Event} {event : Event}
    (h : ∀ path, ¬ event.Concerns path) : event.Follows past where
  reserved _ _ hp := absurd (hp.imp id .inl) (h _)
  typed path hw := absurd (.inr (.inl hw)) (h path)
  landed path _ _ _ he := absurd (.inr (.inl (he ▸ rfl))) (h path)
  kept path hd := absurd (.inr (.inl (written_of_dropped hd))) (h path)

/-- What holds of every event that a deed notes. -/
def Deed.Notes (P : Event → Prop) : Deed → Prop
  | .declare path type => P (.declared path type)
  | .write path entry propagating => ∀ landed, P (.wrote path entry propagating landed)
  | .note event => P event
  | _ => True

/-- True of deeds that neither record a type nor write nor call a resolver. -/
def Deed.IsIdle : Deed → Prop
  | .declare _ _ => False
  | .write _ _ _ => False
  | .note event => ∀ path, ¬ event.Concerns path
  | _ => True

namespace State

/-- What has happened, in order. -/
def events (state : State) : List Event := state.history.reverse.map Prod.snd

variable (state : State)

@[simp] theorem events_note (event : Event) :
    (state.perform (.note event)).events = state.events ++ [event] := by
  simp [events, perform, note]

@[simp] theorem events_report (errors : List ResponseError) :
    (state.perform (.report errors)).events = state.events := rfl

@[simp] theorem events_draw : (state.perform .draw).events = state.events := rfl

@[simp] theorem events_declare (path : Path) (type : TypeRef) :
    (state.perform (.declare path type)).events = state.events ++ [.declared path type] := by
  simp [events, perform, declare, note]

@[simp] theorem events_write (path : Path) (entry : Entry) (propagating : Bool) :
    (state.perform (.write path entry propagating)).events = state.events ++
      [.wrote path entry propagating (state.tree.write? path entry propagating).isSome] := by
  simp [events, perform, write, note]

theorem perform_notes {deed : Deed} {P : Event → Prop} (h : deed.Notes P) :
    ∃ more, (state.perform deed).events = state.events ++ more ∧ ∀ event ∈ more, P event := by
  cases deed with
  | report errors => exact ⟨[], by simp, fun _ he => nomatch he⟩
  | draw => exact ⟨[], by simp, fun _ he => nomatch he⟩
  | declare path type =>
    exact ⟨_, events_declare state path type, fun event he => List.mem_singleton.mp he ▸ h⟩
  | write path entry propagating =>
    exact ⟨_, events_write state path entry propagating,
      fun event he => List.mem_singleton.mp he ▸ h _⟩
  | note event => exact ⟨_, events_note state event, fun other he => List.mem_singleton.mp he ▸ h⟩

/-- What holds of all that is noted by deeds. -/
theorem performAll_notes {deeds : List Deed} {P : Event → Prop}
    (h : ∀ deed ∈ deeds, deed.Notes P) :
    ∃ more, (state.performAll deeds).events = state.events ++ more ∧ ∀ event ∈ more, P event := by
  induction deeds generalizing state with
  | nil => exact ⟨[], by simp, fun _ he => nomatch he⟩
  | cons deed rest ih =>
    obtain ⟨first, hf, hfirst⟩ := state.perform_notes (h deed List.mem_cons_self)
    obtain ⟨more, hm, hmore⟩ := ih (state.perform deed) fun other ho =>
      h other (List.mem_cons_of_mem _ ho)
    refine ⟨first ++ more, by rw [performAll_cons, hm, hf, List.append_assoc], fun event he => ?_⟩
    exact (List.mem_append.mp he).elim (hfirst event) (hmore event)

/-- Deeds only add to what has happened. -/
theorem events_performAll (deeds : List Deed) :
    ∃ more, (state.performAll deeds).events = state.events ++ more := by
  have hnotes : ∀ deed ∈ deeds, deed.Notes fun _ => True := fun deed _ => by
    cases deed <;> simp [Deed.Notes]
  obtain ⟨more, hm, -⟩ := state.performAll_notes hnotes
  exact ⟨more, hm⟩

theorem declared_of_deed {deeds : List Deed} {path : Path} {type : TypeRef}
    (h : .declare path type ∈ deeds) : .declared path type ∈ (state.performAll deeds).events := by
  obtain ⟨before, after, rfl⟩ := List.append_of_mem h
  rw [performAll_append, performAll_cons]
  obtain ⟨more, hm⟩ :=
    ((state.performAll before).perform (.declare path type)).events_performAll after
  rw [hm, events_declare]
  simp

/-- `state.Extends next own`: what has happened from one state to the next concerns these places
and those inside of them. -/
def Extends (state next : State) (own : List Path) : Prop :=
  ∃ more, next.events = state.events ++ more ∧
    ∀ event ∈ more, ∀ place, event.Concerns place → ∃ top ∈ own, top <+: place

/-- The history of a state is disciplined, and the tree is what has come of it. -/
structure Recorded (state : State) : Prop where
  disciplined : Disciplined state.events
  alike : (replayed state.events).Alike state.tree
  nulls : ∀ path, state.tree.data.at? path = some .null →
    (∃ landed, .wrote path .null false landed ∈ state.events) ∨ Collapses state.events path

namespace Extends

variable {state next last : State} {own : List Path} {path : Path}

theorem refl (state : State) (own : List Path) : state.Extends state own :=
  ⟨[], by simp, fun _ he => nomatch he⟩

theorem trans (h : state.Extends next own) (k : next.Extends last own) : state.Extends last own := by
  obtain ⟨first, hf, hown⟩ := h
  obtain ⟨second, hs, hown'⟩ := k
  refine ⟨first ++ second, by rw [hs, hf, List.append_assoc], fun event he => ?_⟩
  exact (List.mem_append.mp he).elim (hown event) (hown' event)

/-- What happens in places that are held by others happens in those others. -/
theorem within (h : state.Extends next own) {outer : List Path}
    (hb : ∀ path ∈ own, ∃ top ∈ outer, top <+: path) : state.Extends next outer := by
  obtain ⟨more, hm, hown⟩ := h
  refine ⟨more, hm, fun event he place hp => ?_⟩
  obtain ⟨path, hpath, hplace⟩ := hown event he place hp
  obtain ⟨top, ht, htop⟩ := hb path hpath
  exact ⟨top, ht, htop.trans hplace⟩

/-- What happens elsewhere does not reach a place. -/
theorem outside (h : state.Extends next own) (ha : ∀ top ∈ own, top.Apart path) :
    ∃ more, next.events = state.events ++ more ∧
      ∀ event ∈ more, ∀ place, event.Concerns place → ¬ path <+: place := by
  obtain ⟨more, hm, hown⟩ := h
  refine ⟨more, hm, fun event he place hp hpath => ?_⟩
  obtain ⟨top, ht, htop⟩ := hown event he place hp
  rcases List.prefix_or_prefix_of_prefix htop hpath with hb | hb
  · exact (ha top ht).1 hb
  · exact (ha top ht).2 hb

theorem fresh (h : state.Extends next own) (ha : ∀ top ∈ own, top.Apart path)
    (hf : Fresh state.events path) : Fresh next.events path := by
  obtain ⟨more, hm, hout⟩ := h.outside ha
  rw [hm]
  exact hf.append hout

theorem begun (h : state.Extends next own) (ha : ∀ top ∈ own, top.Apart path)
    (hb : Begun state.events path) : Begun next.events path := by
  obtain ⟨more, hm, hout⟩ := h.outside ha
  rw [hm]
  exact hb.append hout

theorem uncalled (h : state.Extends next own) (ha : ∀ top ∈ own, top.Apart path)
    (hu : Uncalled state.events path) : Uncalled next.events path := by
  obtain ⟨more, hm, hout⟩ := h.outside ha
  rw [hm]
  exact hu.append fun event he hc => hout event he path (.inr (.inr hc)) (List.prefix_refl path)

end Extends

theorem extends_declare (state : State) (path : Path) (type : TypeRef) :
    state.Extends (state.perform (.declare path type)) [path] := by
  refine ⟨[.declared path type], events_declare state path type, fun event he place hp => ?_⟩
  obtain rfl := List.mem_singleton.mp he
  rcases hp with hp | hp | hp
  · exact ⟨path, List.mem_singleton_self path, Option.some.inj hp ▸ List.prefix_refl _⟩
  · cases hp
  · cases hp

theorem extends_write (state : State) (path : Path) (entry : Entry) (propagating : Bool) :
    state.Extends (state.perform (.write path entry propagating)) [path] := by
  refine ⟨_, events_write state path entry propagating, fun event he place hp => ?_⟩
  obtain rfl := List.mem_singleton.mp he
  rcases hp with hp | hp | hp
  · cases hp
  · exact ⟨path, List.mem_singleton_self path, Option.some.inj hp ▸ List.prefix_refl _⟩
  · cases hp

theorem extends_call (state : State) (path : Path) (parentType fieldName : String) (parent : Json)
    (resolver : Resolver) (source : ResolverSource) :
    state.Extends
      (state.perform (.note (.called path parentType fieldName parent resolver source))) [path] := by
  refine ⟨_, events_note state _, fun event he place hp => ?_⟩
  obtain rfl := List.mem_singleton.mp he
  rcases hp with hp | hp | hp
  · cases hp
  · cases hp
  · exact ⟨path, List.mem_singleton_self path, Option.some.inj hp ▸ List.prefix_refl _⟩

namespace Recorded

variable {state : State} {path : Path}

theorem report (h : state.Recorded) (errors : List ResponseError) :
    (state.perform (.report errors)).Recorded :=
  ⟨h.disciplined, ⟨h.alike.data, h.alike.types⟩, h.nulls⟩

theorem draw (h : state.Recorded) : (state.perform .draw).Recorded :=
  ⟨h.disciplined, h.alike, h.nulls⟩

/-- The nulls of data that an event leaves as they are. -/
theorem nulls_append (h : state.Recorded) {event : Event} (hn : state.tree.data.at? path = some .null) :
    (∃ landed, .wrote path .null false landed ∈ state.events ++ [event]) ∨
      Collapses (state.events ++ [event]) path :=
  (h.nulls path hn).imp (fun ⟨landed, hm⟩ => ⟨landed, List.mem_append_left _ hm⟩)
    (Collapses.append · _)

theorem note (h : state.Recorded) {event : Event} (hi : ∀ path, ¬ event.Concerns path) :
    (state.perform (.note event)).Recorded where
  disciplined := by
    rw [events_note]
    exact h.disciplined.concat (fun path hp => absurd (.inl hp) (hi path))
      (fun path hp => absurd (.inr (.inl hp)) (hi path))
      (fun path hp => absurd (.inr (.inr hp)) (hi path)) (.idle hi)
  alike := by
    have hreplay : (replayed state.events).replay event = replayed state.events := by
      cases event with
      | declared path type => exact absurd (.inl rfl) (hi path)
      | wrote path entry propagating landed => exact absurd (.inr (.inl rfl)) (hi path)
      | _ => rfl
    rw [events_note, replayed_append_singleton, hreplay]
    exact h.alike
  nulls path hn := by
    rw [events_note]
    exact h.nulls_append hn

/-- A resolver is called for a path for which none has been called. -/
theorem call (h : state.Recorded) (hn : Uncalled state.events path)
    (parentType fieldName : String) (parent : Json) (resolver : Resolver)
    (source : ResolverSource) :
    (state.perform (.note (.called path parentType fieldName parent resolver source))).Recorded where
  disciplined := by
    rw [events_note]
    refine h.disciplined.concat (fun _ hp => nomatch hp) (fun _ hp => nomatch hp)
      (fun other hp hm => ?_) ⟨fun _ _ hp => ?_, (fun _ hp => nomatch hp),
        (fun _ _ _ _ he => nomatch he), (fun _ hd => nomatch hd)⟩
    · obtain rfl := Option.some.inj hp
      obtain ⟨event, he, hc⟩ := List.mem_filterMap.mp hm
      exact hn event he hc
    · rcases hp with hp | hp <;> cases hp
  alike := by
    rw [events_note, replayed_append_singleton]
    exact h.alike
  nulls path hn := by
    rw [events_note]
    exact h.nulls_append hn

/-- A type is recorded at a fresh place. -/
theorem declare (h : state.Recorded) (hp : Fresh state.events path) (type : TypeRef) :
    (state.perform (.declare path type)).Recorded where
  disciplined := by
    rw [events_declare]
    refine h.disciplined.concat (fun other ho hm => ?_) (fun _ ho => nomatch ho)
      (fun _ ho => nomatch ho) ⟨fun container segment ho => ?_, (fun _ ho => nomatch ho),
        (fun _ _ _ _ he => nomatch he), (fun _ hd => nomatch hd)⟩
    · obtain rfl := Option.some.inj ho
      obtain ⟨event, he, hd⟩ := List.mem_filterMap.mp hm
      exact hp.untouched event he path (.inl hd) (List.prefix_refl path)
    · rcases ho with ho | ho
      · exact hp.reserved container segment (Option.some.inj ho)
      · cases ho
  alike := by
    rw [events_declare, replayed_append_singleton]
    exact h.alike.record path type
  nulls path hn := by
    rw [events_declare]
    exact h.nulls_append hn

/-- A fresh place begins when its type is recorded, before a resolver is called there. -/
theorem begun_declare (hf : Fresh state.events path) (type : TypeRef) :
    Begun (state.perform (.declare path type)).events path ∧
      Uncalled (state.perform (.declare path type)).events path := by
  rw [events_declare]
  refine ⟨hf.begin type, hf.uncalled.append fun event he => ?_⟩
  rw [List.mem_singleton.mp he]
  exact fun hc => nomatch hc

/-- A container that was reserved for the places inside of it was not written as a null. -/
theorem collapses_of_dead (h : state.Recorded) (hp : Begun state.events path)
    (hd : state.tree.data.Dead path) :
    ∃ container, container <+: path ∧ container ≠ path ∧
      state.tree.data.at? container = some .null ∧ Collapses state.events container := by
  obtain ⟨container, segment, rest, rfl, hn⟩ := hd
  refine ⟨container, List.prefix_append _ _, by simp, hn, ?_⟩
  refine (h.nulls container hn).resolve_left fun ⟨landed, hnull⟩ => ?_
  have hnext : container ++ [segment] <+: container ++ segment :: rest :=
    ⟨rest, by simp⟩
  obtain ⟨entry, dropped, hm, hopens⟩ :=
    h.disciplined.reserves (hp.typed _ hnext (by simp))
  have hsame := h.disciplined.written_unique hnull hm rfl rfl
  obtain ⟨-, rfl, -, -⟩ := Event.wrote.inj hsame
  exact hopens

/-- A plain write is dropped only where the path leads through a null. -/
theorem dead_of_dropped (entry : Entry) (ho : state.tree.data.Open path)
    (hd : (state.tree.write? path entry false).isSome = false) : state.tree.data.Dead path := by
  refine ho.resolve_left fun hpending => ?_
  obtain ⟨changed, hs⟩ := Slot.exists_swap hpending entry.slot
  have hupdate := hs.update? (fun slot => if slot.isPending then some entry.slot else none) rfl
  simp [ResultTree.write?, ResultTree.place?, hupdate] at hd

/-- The nulls after a write are those before it, the null that is written, or the container that
has collapsed. -/
theorem nulls_write (h : state.Recorded) {entry : Entry} {propagating : Bool} {next : ResultTree}
    (hw : state.tree.Written path entry propagating next) (he : entry.Proper) {landed : Bool}
    (ha : (replayed (state.events ++ [.wrote path entry propagating landed])).Alike next)
    {place : Path} (hn : next.data.at? place = some .null) :
    (∃ landed', .wrote place .null false landed' ∈
        state.events ++ [.wrote path entry propagating landed]) ∨
      Collapses (state.events ++ [.wrote path entry propagating landed]) place := by
  cases hw with
  | dropped _ _ => exact h.nulls_append hn
  | @placed changed swap =>
    change changed.at? place = some .null at hn
    by_cases hb : path <+: place
    · obtain ⟨rest, rfl⟩ := hb
      rw [swap.at?_below] at hn
      obtain ⟨rfl, rfl⟩ := he.eq_null hn
      exact .inl ⟨landed, by simp⟩
    · by_cases hp : place <+: path
      · have hne : place ≠ path := fun he => hb (he ▸ List.prefix_refl _)
        exact absurd rfl (Slot.ne_null_of_prefix hn hp hne swap.symm.at?_eq)
      · rw [swap.at?_apart hb hp] at hn
        exact h.nulls_append hn
  | @collapsed point segment rest container changed there below admits swap null =>
    change changed.at? place = some .null at hn
    by_cases hb : point <+: place
    · obtain ⟨inside, rfl⟩ := hb
      rw [swap.at?_below] at hn
      cases inside with
      | cons segment inside => cases segment <;> cases hn
      | nil =>
        obtain ⟨hole, child, hc, -, -⟩ := Slot.at?_above (below ▸ there)
        rw [List.append_nil]
        refine .inr ⟨state.events, path, entry, landed, [], rfl, fun hnull => ?_, ?_⟩
        · rw [← h.alike.data, hc] at hnull
          exact Slot.fill_ne_null hole child (Option.some.inj hnull)
        · rw [← ha.data]
          exact swap.symm.at?_eq
    · by_cases hp : place <+: point
      · have hne : place ≠ point := fun he => hb (he ▸ List.prefix_refl _)
        exact absurd rfl (Slot.ne_null_of_prefix hn hp hne swap.symm.at?_eq)
      · rw [swap.at?_apart hb hp] at hn
        exact h.nulls_append hn

/-- A value is written where one has begun. -/
theorem write (h : state.Recorded) (hp : Begun state.events path) (hr : state.tree.Regular)
    (ho : state.tree.data.Open path) (entry : Entry) (he : entry.Proper) (propagating : Bool)
    (hne : propagating = true → path ≠ []) :
    (state.perform (.write path entry propagating)).Recorded := by
  have hwrite := h.alike.write? path entry propagating
  have halike : (replayed (state.perform (.write path entry propagating)).events).Alike
      (state.perform (.write path entry propagating)).tree := by
    rw [events_write, replayed_append_singleton]
    exact hwrite.2
  refine ⟨?_, halike, fun place hn => ?_⟩
  · rw [events_write]
    refine h.disciplined.concat (fun _ ho => nomatch ho) (fun other hother hm => ?_)
      (fun _ ho => nomatch ho) ⟨fun container segment hother => ?_, fun other hother => ?_,
        fun _ _ _ _ heq => ?_, fun other hd => ?_⟩
    · obtain rfl := Option.some.inj hother
      obtain ⟨event, hevent, hw⟩ := List.mem_filterMap.mp hm
      exact hp.unwritten event hevent hw
    · obtain rfl := Option.some.inj (hother.resolve_left fun hd => nomatch hd)
      exact h.disciplined.reserves (hp.typed _ (List.prefix_refl _) (by simp))
    · obtain rfl := Option.some.inj hother
      exact hp.typed
    · obtain ⟨rfl, rfl, rfl, rfl⟩ := Event.wrote.inj heq
      exact hwrite.1.symm
    · obtain rfl := Option.some.inj (Event.written_of_dropped hd)
      rw [← h.alike.data]
      refine h.collapses_of_dead hp (dead_of_dropped entry ho ?_)
      unfold Event.dropped? at hd
      split at hd
      · next heq =>
        obtain ⟨-, -, rfl, hd⟩ := Event.wrote.inj heq
        exact hd
      · cases hd
  · rw [events_write] at halike ⊢
    exact h.nulls_write (ResultTree.written hr ho entry hne) he halike hn

/-- Deeds that neither record a type nor write nor call. -/
theorem idle (h : state.Recorded) (deeds : List Deed) (hd : ∀ deed ∈ deeds, deed.IsIdle) :
    (state.performAll deeds).Recorded ∧ state.Extends (state.performAll deeds) [] := by
  induction deeds generalizing state with
  | nil => exact ⟨h, .refl state []⟩
  | cons deed rest ih =>
    have hrest : ∀ other ∈ rest, other.IsIdle := fun other ho => hd other (List.mem_cons_of_mem _ ho)
    have hfirst := hd deed List.mem_cons_self
    have hstep : (state.perform deed).Recorded ∧ state.Extends (state.perform deed) [] := by
      cases deed with
      | report errors => exact ⟨h.report errors, .refl state []⟩
      | draw => exact ⟨h.draw, .refl state []⟩
      | note event =>
        refine ⟨h.note hfirst, [event], events_note state event, fun other ho place hp => ?_⟩
        obtain rfl := List.mem_singleton.mp ho
        exact absurd hp (hfirst place)
      | declare | write => cases hfirst
    obtain ⟨hrecorded, hextends⟩ := ih hstep.1 hrest
    exact ⟨hrecorded, hstep.2.trans hextends⟩

/-- The types of places none of which leads through another are recorded one after another. -/
theorem declareAll (h : state.Recorded) (sites : List Site)
    (hs : ∀ site ∈ sites, Fresh state.events site.path)
    (ha : (sites.map Site.path).Pairwise Path.Apart) :
    let next := state.performAll (sites.map fun site => .declare site.path site.type)
    next.Recorded ∧ (∀ site ∈ sites, Begun next.events site.path) ∧
      state.Extends next (sites.map Site.path) := by
  induction sites generalizing state with
  | nil => exact ⟨h, (fun _ hm => nomatch hm), .refl state []⟩
  | cons first rest ih =>
    obtain ⟨hfirst, hrest⟩ := List.pairwise_cons.mp ha
    have hfresh := hs first List.mem_cons_self
    have hextends := extends_declare state first.path first.type
    obtain ⟨hrecorded, hbegun, hmore⟩ := ih (h.declare hfresh first.type)
      (fun site hm => hextends.fresh (fun top ht => by
        obtain rfl := List.mem_singleton.mp ht
        exact hfirst _ (List.mem_map_of_mem hm)) (hs site (List.mem_cons_of_mem _ hm))) hrest
    refine ⟨hrecorded, fun site hm => ?_, ?_⟩
    · rcases List.mem_cons.mp hm with rfl | hm
      · refine hmore.begun (fun top ht => (hfirst top ht).symm) ?_
        rw [events_declare]
        exact hfresh.begin _
      · exact hbegun site hm
    · refine (hextends.within fun path hp => ?_).trans (hmore.within fun path hp => ?_)
      · exact ⟨path, by simpa using .inl (List.mem_singleton.mp hp), List.prefix_refl path⟩
      · exact ⟨path, List.mem_cons_of_mem _ hp, List.prefix_refl path⟩

/-- A resolver is called where a value has begun. -/
theorem begun_call (hb : Begun state.events path) (parentType fieldName : String) (parent : Json)
    (resolver : Resolver) (source : ResolverSource) :
    Begun (state.perform (.note (.called path parentType fieldName parent resolver source))).events
      path where
  inside event he place hc hp := by
    rw [events_note] at he
    rcases List.mem_append.mp he with he | he
    · exact hb.inside event he place hc hp
    · obtain rfl := List.mem_singleton.mp he
      rcases hc with hc | hc | hc
      · cases hc
      · cases hc
      · exact (Option.some.inj hc).symm
  unwritten event he hw := by
    rw [events_note] at he
    rcases List.mem_append.mp he with he | he
    · exact hb.unwritten event he hw
    · obtain rfl := List.mem_singleton.mp he
      cases hw
  typed place hp hn := by
    rw [events_note]
    exact (hb.typed place hp hn).append _

/-- The resolver of a field is called where none has been called. -/
theorem fieldDeeds (h : state.Recorded) {env : Environment} {frame : ObjectFrame}
    {group : FieldGroup} (hb : Begun state.events (frame.path.key group.key))
    (hu : Uncalled state.events (frame.path.key group.key)) (found : FieldLookup)
    (type : TypeRef) :
    let next := state.performAll (Work.fieldDeeds env frame group found type)
    next.Recorded ∧ Begun next.events (frame.path.key group.key) ∧
      state.Extends next [frame.path.key group.key] := by
  generalize hpath : frame.path.key group.key = path at hb hu
  -- the span that may be opened before the call
  have hopened := h.idle (if env.config.tracing then
      [.note (.opened path frame.type.name group.node.name)] else []) (by
    intro deed hd
    split at hd
    · obtain rfl := List.mem_singleton.mp hd
      rintro place (hc | hc | hc) <;> cases hc
    · cases hd)
  generalize hstate : state.performAll (if env.config.tracing then _ else _) = opened at hopened
  obtain ⟨hrecorded, hidle⟩ := hopened
  have hbegun : Begun opened.events path := hidle.begun (fun _ ht => nomatch ht) hb
  have huncalled : Uncalled opened.events path := hidle.uncalled (fun _ ht => nomatch ht) hu
  have hextends : state.Extends opened [path] := hidle.within fun _ hp => nomatch hp
  simp only [Work.fieldDeeds, hpath, performAll_append, hstate]
  cases found with
  | introspection field => exact ⟨hrecorded, hbegun, hextends⟩
  | ordinary definition =>
    cases env.registry.resolver? frame.type.name group.node.name with
    | none => exact ⟨hrecorded, hbegun, hextends⟩
    | some entry =>
      obtain ⟨resolver, source⟩ := entry
      have hcall := hrecorded.call huncalled frame.type.name group.node.name frame.value resolver
        source
      exact ⟨hcall.report _, begun_call hbegun _ _ _ _ _,
        hextends.trans (extends_call opened path _ _ _ _ _)⟩

end Recorded

end State

end GraphQL
