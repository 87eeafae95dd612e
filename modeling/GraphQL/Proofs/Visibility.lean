import GraphQL.Proofs.Following
import GraphQL.Proofs.Halting
import GraphQL.Proofs.Hidden
import GraphQL.Proofs.Notes
import GraphQL.Proofs.Provenance

/-!
# Visibility

An execution enters no type that the request does not see. Types are looked up in many places: for
the root, for the condition of a fragment, for the outermost name of a field's type, below each
wrapper of it, and for the object type of an abstract value. Each of these asks the hook of the
schema; the lookups that do not ask it only decide which types are possible. This needs the types of
fields to be late references: a reference that holds its definition is not looked up again.
-/

namespace GraphQL

namespace TypeRef

/-- True of late references, also inside of lists and non-null types. -/
def isLate : TypeRef → Bool
  | late _ => true
  | resolved _ => false
  | list item => item.isLate
  | nonNull inner => inner.isLate

/-- A non-null value of the type is completed at the type of this name. -/
inductive EndsIn (name : String) : TypeRef → Prop where
  | late : EndsIn name (.late name)
  | nonNull {inner : TypeRef} (h : EndsIn name inner) : EndsIn name (.nonNull inner)

end TypeRef

namespace Schema

/-- True if the types of all fields are looked up each time they are used. -/
def isLateBound (schema : Schema) : Bool :=
  schema.types.all fun type => (type.fields?.getD []).all fun field => field.type.isLate

/-- The type is registered under its name, and the hook accepts it if there is one. -/
structure Accepts (schema : Schema) (context : Context) (type : TypeDef) : Prop where
  registered : schema.type? type.name = some type
  visible : ∀ visible, schema.visibility = some visible → visible type context = true

variable {schema : Schema} {context : Context} {name : String} {type : TypeDef}

theorem accepts_of_visible (h : schema.visibleType? context name = some type) :
    type.name = name ∧ schema.Accepts context type := by
  have hregistered := type?_of_visible h
  have hname := name_of_type hregistered
  refine ⟨hname, hname ▸ hregistered, fun visible hv => ?_⟩
  rw [visibleType?, hregistered, hv] at h
  by_contra hhidden
  simp [hhidden] at h

theorem isLate_of_accepts (hlate : schema.isLateBound = true) (h : schema.Accepts context type)
    {fields : List FieldDef} (hf : type.fields? = some fields) {field : FieldDef}
    (hm : field ∈ fields) : field.type.isLate = true := by
  have hall := List.all_eq_true.mp hlate type (List.mem_of_find?_eq_some h.registered)
  rw [hf] at hall
  exact List.all_eq_true.mp hall field hm

/-- The type of a field that is selected on an accepted type is late. -/
theorem isLate_of_field? (hlate : schema.isLateBound = true) (h : schema.Accepts context type)
    {found : FieldLookup} (hf : schema.field? type name = some found) :
    found.definition.type.isLate = true := by
  unfold field? at hf
  split at hf
  · next definition hfound =>
    cases hf
    have hm := List.mem_of_find?_eq_some hfound
    cases ht : type.fields? with
    | none => simp [ht] at hm
    | some fields =>
      rw [ht] at hm
      exact isLate_of_accepts hlate h ht hm
  · split_ifs at hf <;> cases hf <;> rfl

/-- The object type of a value of an abstract type is an accepted one. -/
theorem accepts_of_concrete {value : Json} {concrete : ObjectDef}
    (h : schema.concreteType? context type value = some concrete) :
    schema.Accepts context (.object concrete) := by
  unfold concreteType? at h
  split at h
  · cases h
  · split at h
    · next object hv =>
      split_ifs at h
      cases h
      exact (accepts_of_visible hv).2
    · cases h

end Schema

namespace Environment

/-- The type is one that the request sees. -/
def Accepts (env : Environment) (type : TypeDef) : Prop := env.schema.Accepts env.context type

end Environment

namespace TypeRef

/-- Whatever definition the reference holds is accepted. -/
def Accepted (env : Environment) : TypeRef → Prop
  | resolved definition => env.Accepts definition
  | late _ => True
  | list item => item.Accepted env
  | nonNull inner => inner.Accepted env

/-- A value of the declared type is completed at the definition. -/
inductive Names (env : Environment) : TypeRef → TypeDef → Prop where
  | resolved (definition : TypeDef) : Names env (.resolved definition) definition
  | late {name : String} {definition : TypeDef}
      (h : env.schema.visibleType? env.context name = some definition) :
      Names env (.late name) definition
  | nonNull {inner : TypeRef} {definition : TypeDef} (h : Names env inner definition) :
      Names env (.nonNull inner) definition

variable {env : Environment} {declared : TypeRef} {type : TypeDef}

theorem accepted_of_late (h : declared.isLate = true) : declared.Accepted env := by
  induction declared with
  | resolved definition => cases h
  | late name => trivial
  | list item ih => exact ih h
  | nonNull inner ih => exact ih h

theorem Accepted.of_resolve {resolved : TypeRef} (h : declared.Accepted env)
    (hr : env.schema.resolve env.context declared = .ok resolved) : resolved.Accepted env := by
  cases declared with
  | late name =>
    rw [Schema.resolve] at hr
    split at hr
    · next definition hv =>
      cases hr
      exact (Schema.accepts_of_visible hv).2
    · cases hr
  | resolved | list | nonNull => exact Except.ok.inj hr ▸ h

/-- Values are completed at accepted types. -/
theorem Accepted.names (h : declared.Accepted env) (hn : declared.Names env type) :
    env.Accepts type := by
  induction hn with
  | resolved definition => exact h
  | late hv => exact (Schema.accepts_of_visible hv).2
  | nonNull _ ih => exact ih h

end TypeRef

/-- The definition of a leaf type. -/
def Leaf.LeafDef.definition : Leaf.LeafDef → TypeDef
  | scalar definition => .scalar definition
  | enum definition => .enum definition

namespace Shaped

variable {env : Environment} {site : Site} {content : Content}

theorem leaf_of_named {type : TypeDef} {output : Json}
    (h : ofNamed env site content type = .leaf output) :
    ∃ definition : Leaf.LeafDef, type = definition.definition := by
  have habstract : ∀ output, ofAbstract env site type content ≠ .leaf output := by
    intro output he
    unfold ofAbstract at he
    dsimp only at he
    split at he
    · cases content <;> cases he
    · cases he
  cases type with
  | scalar definition => exact ⟨.scalar definition, rfl⟩
  | enum definition => exact ⟨.enum definition, rfl⟩
  | union definition => exact absurd h (habstract output)
  | interface definition => exact absurd h (habstract output)
  | object definition => cases content <;> cases h
  | inputObject definition => cases h

/-- A value is completed at the type that the declared type names, as a list, or not at all. -/
theorem of_cases (env : Environment) (site : Site) (content : Content) (declared : TypeRef) :
    (∃ type, declared.Names env type ∧
      of env site content declared = ofNamed env site content type) ∨
    (∃ itemType items, of env site content declared = .list itemType items ∧
      (declared.Accepted env → itemType.Accepted env)) ∨
    (∃ errors, of env site content declared = .null errors) ∨
    ∃ raised, of env site content declared = .fault raised := by
  induction declared with
  | resolved definition => exact .inl ⟨definition, .resolved definition, rfl⟩
  | late name =>
    rw [of]
    split
    · next definition hv => exact .inl ⟨definition, .late hv, rfl⟩
    · exact .inr (.inr (.inr ⟨_, rfl⟩))
  | list item _ =>
    rw [of]
    split
    · exact .inr (.inr (.inl ⟨_, rfl⟩))
    · exact .inr (.inl ⟨item, _, rfl, id⟩)
  | nonNull inner ih =>
    rcases ih with ⟨type, hn, he⟩ | ⟨itemType, items, he, ha⟩ | hnull | hfault
    · exact .inl ⟨type, .nonNull hn, he⟩
    · exact .inr (.inl ⟨itemType, items, he, ha⟩)
    · exact .inr (.inr (.inl hnull))
    · exact .inr (.inr (.inr hfault))

variable {declared : TypeRef}

theorem leaf_named {output : Json} (h : of env site content declared = .leaf output) :
    ∃ definition : Leaf.LeafDef, declared.Names env definition.definition := by
  rcases of_cases env site content declared with
    ⟨type, hn, he⟩ | ⟨_, _, he, _⟩ | ⟨_, he⟩ | ⟨_, he⟩ <;> rw [he] at h
  · obtain ⟨definition, rfl⟩ := leaf_of_named h
    exact ⟨definition, hn⟩
  · cases h
  · cases h
  · cases h

theorem object_accepted {type : ObjectDef} {value : Json} (ha : declared.Accepted env)
    (h : of env site content declared = .object type value) : env.Accepts (.object type) := by
  rcases of_cases env site content declared with
    ⟨definition, hn, he⟩ | ⟨_, _, he, _⟩ | ⟨_, he⟩ | ⟨_, he⟩ <;> rw [he] at h
  · have haccepts := ha.names hn
    rcases ofNamed_cases env site content definition with
      ⟨_, he⟩ | ⟨_, he⟩ | ⟨_, he⟩ | ⟨concrete, _, -, hc, he⟩ <;> rw [he] at h <;> cases h
    rcases hc with rfl | ⟨-, hc⟩
    · exact haccepts
    · exact Schema.accepts_of_concrete hc
  · cases h
  · cases h
  · cases h

theorem item_accepted {itemType : TypeRef} {items : List Resolution}
    (ha : declared.Accepted env) (h : of env site content declared = .list itemType items) :
    itemType.Accepted env := by
  rcases of_cases env site content declared with
    ⟨type, _, he⟩ | ⟨_, _, he, hi⟩ | ⟨_, he⟩ | ⟨_, he⟩ <;> rw [he] at h
  · exact absurd h (ofNamed_ne_list env site content type itemType items)
  · cases h
    exact hi ha
  · cases h
  · cases h

end Shaped

/-- The type at whose object a value that is being authorized is entered. -/
def Work.entering? : Work → Option ObjectDef
  | settle _ (.enter type) _ => some type
  | await _ (.enter type) _ _ _ => some type
  | resume _ (.enter type) _ => some type
  | _ => none

/-- The value of an accepted leaf type, by the type declared at its place. -/
def LeafSeen (env : Environment) (events : List Event) (path : Path) : Prop :=
  ∃ declared, ∃ leaf : Leaf.LeafDef, .declared path declared ∈ events ∧
    declared.Names env leaf.definition ∧ env.Accepts leaf.definition

/-- An object of an accepted type, for which its keys were gathered. -/
def ObjectSeen (env : Environment) (keys : List String) : Prop :=
  ∃ type selections groups, env.Accepts type ∧
    Gathering.collect env.schema env.document env.context type selections = .ok groups ∧
    keys = groups.map FieldGroup.key

/-- What holds of an event by all that has happened: no type is entered that is not seen. -/
def Event.Seen (env : Environment) (events : List Event) : Event → Prop
  | declared _ type => type.Accepted env
  | wrote path (.leaf _) _ _ => LeafSeen env events path
  | wrote _ (.object keys) _ _ => ObjectSeen env keys
  | called _ parentType _ _ _ _ => ∃ type, type.name = parentType ∧ env.Accepts type
  | authorized _ typeName _ => ∃ type, type.name = typeName ∧ env.Accepts (.object type)
  | _ => True

/-- The types of the objects on which work is done, of the values that are under way and of the
objects that are being authorized are seen. -/
structure Work.Seen (env : Environment) (events : List Event) (piece : Work) : Prop where
  frame : ∀ frame, piece.frame? = some frame → env.Accepts frame.type
  sites : ∀ site ∈ piece.sites env, .declared site.path site.type ∈ events ∧ site.type.Accepted env
  entering : ∀ type, piece.entering? = some type → env.Accepts (.object type)

section Append

variable {env : Environment} {events : List Event}

theorem Event.Seen.append {event : Event} (h : event.Seen env events) (more : List Event) :
    event.Seen env (events ++ more) := by
  cases event with
  | wrote path entry propagating landed =>
    cases entry with
    | leaf output =>
      obtain ⟨declared, leaf, hm, hseen⟩ := h
      exact ⟨declared, leaf, List.mem_append_left _ hm, hseen⟩
    | _ => exact h
  | _ => exact h

theorem Work.Seen.append {piece : Work} (h : piece.Seen env events) (more : List Event) :
    piece.Seen env (events ++ more) where
  frame := h.frame
  sites site hs := ⟨List.mem_append_left _ (h.sites site hs).1, (h.sites site hs).2⟩
  entering := h.entering

end Append

namespace Work

open Strand

variable {env : Environment} {state : State} {piece : Work} {deeds : List Deed} {outcome : Task}

theorem lookup_accepted (hlate : env.schema.isLateBound = true) {frame : ObjectFrame}
    (hf : env.Accepts frame.type) {group : FieldGroup} {found : FieldLookup} {type : TypeRef}
    (hl : Reference.lookup env frame group = .ok (found, type)) : type.Accepted env := by
  obtain ⟨hfound, hresolve⟩ := Reference.lookup_ok hl
  have hdeclared : found.definition.type.Accepted env :=
    TypeRef.accepted_of_late (Schema.isLate_of_field? hlate hf hfound)
  exact hdeclared.of_resolve hresolve

/-- Work on the object and at sites of the work before it, with its purpose. -/
theorem Seen.go {other : Work} {events : List Event} (h : piece.Seen env events)
    (hf : ∀ frame, other.frame? = some frame → piece.frame? = some frame)
    (hs : other.sites env ⊆ piece.sites env)
    (he : ∀ type, other.entering? = some type → piece.entering? = some type) :
    other.Seen env events where
  frame frame hframe := h.frame frame (hf frame hframe)
  sites site hm := h.sites site (hs hm)
  entering type ht := h.entering type (he type ht)

/-- Work on an object of an accepted type, at no site so far. -/
theorem seen_of_frame {events : List Event} {frame : ObjectFrame} (ha : env.Accepts frame.type)
    (hf : piece.frame? = some frame) (hs : piece.sites env = []) (he : piece.entering? = none) :
    piece.Seen env events where
  frame other ho := by
    obtain rfl : frame = other := Option.some.inj (hf.symm.trans ho)
    exact ha
  sites site hm := by rw [hs] at hm; cases hm
  entering type ht := by rw [he] at ht; cases ht

/-- Work at one site. -/
theorem seen_of_site {events : List Event} {site : Site}
    (hd : .declared site.path site.type ∈ events) (ha : site.type.Accepted env)
    (hf : piece.frame? = none) (hs : piece.sites env = [site])
    (he : ∀ type, piece.entering? = some type → env.Accepts (.object type)) :
    piece.Seen env events where
  frame frame ho := by rw [hf] at ho; cases ho
  sites other hm := by
    rw [hs] at hm
    obtain rfl := List.mem_singleton.mp hm
    exact ⟨hd, ha⟩
  entering := he

/-- A field that is being prepared is at a place of an accepted type, once this has been declared. -/
theorem announced_seen (hlate : env.schema.isLateBound = true) {events : List Event}
    {frame : ObjectFrame} {group : FieldGroup} {found : FieldLookup} {type : TypeRef}
    (hf : env.Accepts frame.type) (hl : Reference.lookup env frame group = .ok (found, type))
    (hd : .declared (frame.path.key group.key) type ∈ events) :
    ∀ site ∈ announced env frame group .check,
      .declared site.path site.type ∈ events ∧ site.type.Accepted env := by
  intro site hm
  rw [announced_of_lookup (by decide) hl] at hm
  obtain rfl := List.mem_singleton.mp hm
  exact ⟨hd, lookup_accepted hlate hf hl⟩

/-- Completing a value of an accepted type leaves work on accepted types. -/
theorem seen_outcome {site : Site} {content : Content}
    (hd : .declared site.path site.type ∈ state.events) (ha : site.type.Accepted env) :
    ∀ left ∈ works ((Shaped.of env site content site.type).outcome env site).strands,
      left.Seen env (state.performAll
        ((Shaped.of env site content site.type).deeds env site)).events := by
  refine forall_works_shaped (fun itemType items hshape place resolution hitem => ?_)
    fun type value hshape => ?_
  · refine seen_of_site (state.declared_of_deed ?_) (Shaped.item_accepted ha hshape) rfl rfl
      fun _ he => by cases he
    rw [hshape]
    refine List.mem_cons_of_mem _ (List.mem_map.mpr ⟨site.item itemType place, ?_, rfl⟩)
    exact List.mem_map_of_mem (List.mem_range.mpr (List.getElem?_eq_some_iff.mp hitem).1)
  · obtain ⟨more, hmore⟩ :=
      state.events_performAll ((Shaped.of env site content site.type).deeds env site)
    rw [hmore]
    exact seen_of_site (List.mem_append_left _ hd) ha rfl rfl
      fun _ he => Option.some.inj he ▸ Shaped.object_accepted ha hshape

/-- A step leaves work on accepted types. -/
theorem Step.seen (h : Step env state piece deeds outcome)
    (hlate : env.schema.isLateBound = true) (hs : piece.Seen env state.events) :
    ∀ left ∈ works outcome.strands, left.Seen env (state.performAll deeds).events := by
  obtain ⟨more, hmore⟩ := state.events_performAll deeds
  -- work on the same object and at the same sites goes on as before
  have hgo : ∀ left : Work, (∀ frame, left.frame? = some frame → piece.frame? = some frame) →
      left.sites env ⊆ piece.sites env →
      (∀ type, left.entering? = some type → piece.entering? = some type) →
      left.Seen env (state.performAll deeds).events := fun left hf hl he =>
    hmore ▸ (hs.append more).go hf hl he
  cases h with
  | gatherFault | prepareFault | fieldFault | skip | null | refuse =>
    exact fun _ hl => absurd hl List.not_mem_nil
  | @gather frame selections serial groups hg =>
    have hframe := hs.frame frame rfl
    exact forall_works_gathered (seen_of_frame hframe rfl (sites_declare frame groups []) rfl)
      fun group _ => seen_of_frame hframe rfl rfl rfl
  | @prepared frame phase prepared =>
    refine forall_works_prepared fun entry hentry => ?_
    refine hgo _ (fun _ he => by cases he) (fun site hm => ?_) fun _ he => by cases he
    obtain rfl := List.mem_singleton.mp hm
    exact List.mem_map_of_mem hentry
  | @prepareDeclare frame group rest prepared found type hl =>
    refine forall_works_work ⟨hs.frame, fun site hm => ?_, fun _ he => by cases he⟩
    rcases List.mem_append.mp hm with hm | hm
    · rw [hmore]
      exact (hs.append more).sites site (List.mem_append_left _ hm)
    · exact announced_seen hlate (hs.frame frame rfl) hl
        (state.declared_of_deed List.mem_cons_self) site hm
  | prepareAdmit | fieldAdmit =>
    exact forall_works_work (hgo _ (fun _ hf => hf) (List.Subset.refl _) fun _ he => by cases he)
  | @prepare frame group rest prepared found type hl =>
    refine forall_works_work (hgo _ (fun _ hf => hf) (fun site hm => ?_) fun _ he => by cases he)
    rw [sites_declare, List.map_append] at hm
    simpa [sites, announced_of_lookup (show Phase.call ≠ .declare by decide) hl] using hm
  | @fieldDeclare frame group found type hl =>
    exact forall_works_work ⟨hs.frame, announced_seen hlate (hs.frame frame rfl) hl
      (state.declared_of_deed List.mem_cons_self), fun _ he => by cases he⟩
  | @field frame group found type hl =>
    refine forall_works_work
      (hgo _ (fun _ hf => by cases hf) (fun site hm => ?_) fun _ he => by cases he)
    rwa [Work.sites, announced_of_lookup (by decide) hl]
  | @ready site purpose value | @settle site purpose value | @queue site purpose
  | @start site purpose | @wake site purpose | @sleep site purpose | @report site purpose =>
    refine forall_works_work (hgo _ (fun _ hf => by cases hf) (List.Subset.refl _) fun _ he => ?_)
    cases purpose <;> exact he
  | content =>
    exact forall_works_work
      (hgo _ (fun _ hf => by cases hf) (List.Subset.refl _) fun _ he => by cases he)
  | @enter site type value exposed hr =>
    exact forall_works_work (seen_of_frame (hs.entering type rfl) rfl rfl rfl)
  | @complete site content =>
    have hsite := hs.sites site (List.mem_singleton_self _)
    exact seen_outcome hsite.1 hsite.2

theorem Prunes.seen (h : Prunes env state piece deeds outcome) (hs : piece.Seen env state.events) :
    ∀ left ∈ works outcome.strands, left.Seen env (state.performAll deeds).events := by
  cases h with
  | @prepare frame group rest prepared hp hd =>
    intro left hleft
    obtain rfl := List.mem_singleton.mp hleft
    refine hs.go (fun _ hf => hf) (fun site hm => ?_) fun _ he => nomatch he
    rw [sites_declare] at hm
    exact List.mem_append_left _ hm
  | field => exact fun _ hl => nomatch hl

/-- The resolver that is called is one of an accepted type. -/
theorem seen_fieldDeeds {events : List Event} {frame : ObjectFrame} (hf : env.Accepts frame.type)
    (group : FieldGroup) (found : FieldLookup) (type : TypeRef) :
    ∀ deed ∈ fieldDeeds env frame group found type, deed.Notes (Event.Seen env events) :=
  forall_fieldDeeds trivial (fun _ _ => ⟨frame.type, rfl, hf⟩) trivial

/-- Completing a value writes leaves of accepted types and asks the authorizers of accepted ones. -/
theorem seen_shaped {events : List Event} {site : Site} {content : Content}
    (hd : .declared site.path site.type ∈ events) (ha : site.type.Accepted env) :
    ∀ deed ∈ (Shaped.of env site content site.type).deeds env site,
      deed.Notes (Event.Seen env events) := by
  intro deed hdeed
  cases hshape : Shaped.of env site content site.type with
  | null errors =>
    rw [hshape] at hdeed
    rcases List.mem_cons.mp hdeed with rfl | hdeed
    · trivial
    · rw [List.mem_singleton.mp hdeed]
      exact fun _ => trivial
  | leaf output =>
    rw [hshape] at hdeed
    rw [List.mem_singleton.mp hdeed]
    obtain ⟨leaf, hn⟩ := Shaped.leaf_named hshape
    exact fun _ => ⟨site.type, leaf, hd, hn, ha.names hn⟩
  | list itemType items =>
    rw [hshape] at hdeed
    rcases List.mem_cons.mp hdeed with rfl | hdeed
    · exact fun _ => trivial
    · obtain ⟨element, he, rfl⟩ := List.mem_map.mp hdeed
      obtain ⟨place, -, rfl⟩ := Reference.mem_elements he
      exact Shaped.item_accepted ha hshape
  | object type value =>
    rw [hshape, Shaped.deeds, Shaped.asked] at hdeed
    split at hdeed
    · rw [List.mem_singleton.mp hdeed]
      exact ⟨type, rfl, Shaped.object_accepted ha hshape⟩
    · cases hdeed
  | fault raised =>
    rw [hshape] at hdeed
    cases hdeed

theorem Step.seen_events (h : Step env state piece deeds outcome)
    (hlate : env.schema.isLateBound = true) {events : List Event} (hs : piece.Seen env events) :
    ∀ deed ∈ deeds, deed.Notes (Event.Seen env events) := by
  cases h with
  | gatherFault | prepared | prepareFault | prepareAdmit | fieldFault | fieldAdmit | skip | content
  | enter => exact fun _ hd => nomatch hd
  | @gather frame selections serial groups hg =>
    intro deed hd
    rw [List.mem_singleton.mp hd]
    exact fun _ => ⟨frame.type, selections, groups, hs.frame frame rfl, hg, rfl⟩
  | prepareDeclare hl | fieldDeclare hl =>
    intro deed hd
    rw [List.mem_singleton.mp hd]
    exact lookup_accepted hlate (hs.frame _ rfl) hl
  | prepare | field => exact seen_fieldDeeds (hs.frame _ rfl) _ _ _
  | ready | settle | queue | start | wake | sleep | report =>
    intro deed hd
    rw [List.mem_singleton.mp hd]
    trivial
  | null | refuse =>
    intro deed hd
    rcases List.mem_cons.mp hd with rfl | hd
    · trivial
    · rw [List.mem_singleton.mp hd]
      exact fun _ => trivial
  | @complete site content =>
    have hsite := hs.sites site (List.mem_singleton_self _)
    exact seen_shaped hsite.1 hsite.2

end Work

namespace Machine

variable {env : Environment} {steps : Nat} {machine next first last : Machine} {address : Address}

/-- All work and all that has happened is on types that the request sees. -/
structure Seen (env : Environment) (machine : Machine) : Prop where
  works : ∀ piece ∈ Strand.works machine.task.strands, piece.Seen env machine.state.events
  events : ∀ event ∈ machine.state.events, event.Seen env machine.state.events

theorem seen_start {operation : Operation} {rootType : TypeDef} (ha : env.Accepts rootType)
    (root : Json) : (Machine.start operation rootType root).Seen env where
  works piece hm := by
    obtain rfl := List.mem_singleton.mp hm
    exact Work.seen_of_frame ha rfl rfl rfl
  events event he := nomatch he

theorem Seen.advance (h : machine.Seen env) (hlate : env.schema.isLateBound = true)
    (move : machine.perform? env (.advance address) = some next) : next.Seen env := by
  obtain ⟨left, piece, right, deeds, outcome, hs, -, htrim, hstate, hstep⟩ := advance_account move
  have hworks := h.works
  rw [hs] at hworks
  have hpiece : piece.Seen env machine.state.events := hworks piece (by simp)
  have hleft : ∀ other ∈ Strand.works outcome.strands,
      other.Seen env (machine.state.performAll deeds).events := by
    rcases hstep with hstep | hstep
    · exact hstep.seen hlate hpiece
    · exact hstep.seen hpiece
  have hnotes : ∀ deed ∈ deeds, deed.Notes (Event.Seen env machine.state.events) := by
    rcases hstep with hstep | hstep
    · exact hstep.seen_events hlate hpiece
    · exact fun deed hd => by cases hstep <;> cases hd
  obtain ⟨more, hmore, hnoted⟩ := machine.state.performAll_notes hnotes
  rw [hmore] at hleft
  constructor
  · rw [hstate, hmore]
    exact htrim.forall_works (fun other ho => (hworks other ho).append more) hleft
  · rw [hstate, hmore]
    intro event he
    rcases List.mem_append.mp he with he | he
    · exact (h.events event he).append more
    · exact (hnoted event he).append more

theorem Run.seen (h : Run env steps first last) (hlate : env.schema.isLateBound = true)
    (hs : first.Seen env) : last.Seen env := by
  refine h.preserves (P := Seen env) (fun move hm => hm.advance hlate move) (fun move hm => ?_) hs
  obtain ⟨wake, -, rfl⟩ := pass_eq move
  exact ⟨hm.works, hm.events⟩

/-- No type is entered but those that the request sees: at this moment, and by all that has happened
so far. -/
structure RespectsVisibility (env : Environment) (machine : Machine) : Prop where
  /-- The selections of objects of seen types are executed, the root included. -/
  objects : ∀ piece ∈ Strand.works machine.task.strands, ∀ frame, piece.frame? = some frame →
    env.Accepts frame.type
  /-- The objects that are being authorized, and are entered next, have seen types. -/
  authorizing : ∀ piece ∈ Strand.works machine.task.strands, ∀ type,
    piece.entering? = some type → env.Accepts (.object type)
  /-- Every fragment that is entered while the selections of an object are gathered is on a seen
  type. -/
  fragments : ∀ frame selections serial,
    .select frame selections serial ∈ Strand.works machine.task.strands →
    ∀ point condition next,
      Gathering.Passes env.schema env.document env.context frame.type { work := selections } point →
      Gathering.turn env.schema env.document env.context frame.type point =
        .ok (.entered (some condition) next) → ∃ type, type.name = condition ∧ env.Accepts type
  /-- Leaves are written for seen types, which their places were declared to have. -/
  leaves : ∀ path output propagating landed,
    .wrote path (.leaf output) propagating landed ∈ machine.state.events →
      LeafSeen env machine.state.events path
  /-- Objects are written with the keys that were gathered for a seen type. -/
  written : ∀ path keys propagating landed,
    .wrote path (.object keys) propagating landed ∈ machine.state.events → ObjectSeen env keys
  /-- Resolvers are called for the fields of seen types, and authorizers for seen types. -/
  called : ∀ path parentType fieldName parent resolver source,
    .called path parentType fieldName parent resolver source ∈ machine.state.events →
      ∃ type, type.name = parentType ∧ env.Accepts type
  authorized : ∀ path typeName value, .authorized path typeName value ∈ machine.state.events →
    ∃ type, type.name = typeName ∧ env.Accepts (.object type)
  /-- Whatever leaf stands in the data is of a seen type, and so is every object. -/
  leaf_data : ∀ path output, machine.state.tree.data.at? path = some (.leaf output) →
    LeafSeen env machine.state.events path
  object_data : ∀ path members, machine.state.tree.data.at? path = some (.object members) →
    ∃ keys landed, .wrote path (.object keys) false landed ∈ machine.state.events ∧
      ObjectSeen env keys

theorem Seen.respects (h : machine.Seen env)
    (hdata : (replayed machine.state.events).Alike machine.state.tree) :
    machine.RespectsVisibility env where
  objects piece hm := (h.works piece hm).frame
  authorizing piece hm := (h.works piece hm).entering
  fragments frame selections serial _ point condition next _ ht := by
    obtain ⟨type, hv, -⟩ := Gathering.turn_entered ht
    exact ⟨type, Schema.accepts_of_visible hv⟩
  leaves path output propagating landed he := h.events _ he
  written path keys propagating landed he := h.events _ he
  called path parentType fieldName parent resolver source he := h.events _ he
  authorized path typeName value he := h.events _ he
  leaf_data path output hf := by
    rw [hdata.data] at hf
    obtain ⟨entry, landed, he, hslot⟩ := written_of_at? hf (by simp) (by simp)
    cases entry with
    | leaf value => exact h.events _ he
    | null | object | list => cases hslot
  object_data path members hf := by
    rw [hdata.data] at hf
    obtain ⟨entry, landed, he, hslot⟩ := written_of_at? hf (by simp) (by simp)
    cases entry with
    | object keys => exact ⟨keys, landed, he, h.events _ he⟩
    | null | leaf | list => cases hslot

end Machine

/-- What becomes of a request that comes to a type that it does not see. -/
structure Environment.Bars (env : Environment) (name : String) : Prop where
  /-- Neither the root nor a fragment is entered at it. -/
  root : ∀ kind, env.schema.rootName? kind = some name →
    env.schema.rootType env.context kind = .error (.unknownType name)
  fragment : ∀ runtimeType,
    Gathering.applies env.schema env.context name runtimeType = .error (.unknownType name)
  /-- A field of the type is neither declared nor resolved. -/
  field : ∀ frame group found going finished state phase,
    env.schema.field? frame.type group.node.name = some found →
    found.definition.type = .late name → phase ≠ .check →
      Preparation.prepareField env frame group going finished state phase =
        (.fault (.unknownType name), state)
  /-- A value of it is not completed. -/
  value : ∀ site content state, site.type.EndsIn name →
    (Work.complete site content).step env state = (.fault (.unknownType name), state)
  /-- A value of an abstract type that is found to be of it ends with an error. -/
  narrowed : ∀ site type value state, site.type.Names env type → type.isAbstract = true →
    env.schema.concreteName? env.context type value = some name →
      (Work.complete site (.value value)).step env state =
        (.done, state.fail site (.unresolvedType type.name))

theorem Shaped.of_names {env : Environment} {declared : TypeRef} {type : TypeDef}
    (h : declared.Names env type) (site : Site) (content : Content) :
    of env site content declared = ofNamed env site content type := by
  induction h with
  | resolved definition => rfl
  | late hv => simp only [of, hv]
  | nonNull _ ih => exact ih

theorem Shaped.of_hidden {env : Environment} {name : String} {declared : TypeRef}
    (hh : env.schema.visibleType? env.context name = none) (h : declared.EndsIn name) (site : Site)
    (content : Content) : of env site content declared = .fault (.unknownType name) := by
  induction h with
  | late => simp only [of, hh]
  | nonNull _ ih => exact ih

/-- A type that the request does not see bars its way. -/
theorem Environment.bars_of_hidden {env : Environment} {name : String}
    (hh : env.schema.visibleType? env.context name = none) : env.Bars name where
  root kind hr := by simp [Schema.rootType, hr, hh]
  fragment runtimeType := by simp [Gathering.applies, hh]
  field frame group found going finished state phase hf ht hphase := by
    have hl : Reference.lookup env frame group = .error (.unknownType name) := by
      simp [Reference.lookup, hf, ht, Schema.resolve, hh]
    rw [Work.prepareField_eq, hl]
    cases phase with
    | declare | call => rfl
    | check => exact absurd rfl hphase
  value site content state he := by
    rw [Work.step, Shaped.complete_eq, Shaped.of_hidden hh he]
    rfl
  narrowed site type value state hn ha hc := by
    have hnone : env.schema.concreteType? env.context type value = none := by
      simp [Schema.concreteType?, hc, hh]
    have hshape : Shaped.ofNamed env site (.value value) type =
        .null [site.failure (.unresolvedType type.name)] := by
      cases type with
      | union | interface => simp only [Shaped.ofNamed, Shaped.ofAbstract, hnone]
      | scalar | object | enum | inputObject => cases ha
    rw [Work.step, Shaped.complete_eq, Shaped.of_names hn, hshape]
    rfl

namespace Executor

/-- **Hidden types are not entered.** Where the types of all fields are late references, every run
at every moment keeps to the types that the hook of the schema accepts, and the names of all others
bar its way. -/
theorem hidden_types_not_entered (executor : Executor) (schema : Schema) (request : Request)
    (hlate : schema.isLateBound = true) {env : Environment} {machine last : Machine} {steps : Nat}
    (hs : executor.start schema request = .ok (env, machine))
    (hr : Machine.Run env steps machine last) :
    last.RespectsVisibility env ∧
      ∀ name, env.schema.visibleType? env.context name = none → env.Bars name := by
  refine ⟨?_, fun name hh => Environment.bars_of_hidden hh⟩
  have hdata := (recorded_of_run hs hr).alike
  obtain ⟨operation, rootType, -, ht, rfl, rfl⟩ := start_found hs
  have haccepts : (executor.environment schema request operation).Accepts rootType := by
    unfold Schema.rootType at ht
    split at ht
    · cases ht
    · split at ht
      · next definition hv => exact Except.ok.inj ht ▸ (Schema.accepts_of_visible hv).2
      · cases ht
  exact (hr.seen hlate (Machine.seen_start haccepts request.root)).respects hdata

end Executor

namespace Sample

/-- Pets of two kinds, of which dogs are for keepers only. -/
def kennel : Schema where
  queryType := some "Query"
  types := [.object { name := "Query", fields := [{ name := "pets", type := .list (.late "Pet") }] },
    .union { name := "Pet", members := ["Cat", "Dog"] },
    .object { name := "Cat", fields := [{ name := "name", type := .required "String" }] },
    .object { name := "Dog", fields := [{ name := "name", type := .required "String" }] },
    .scalar { name := "String" }]
  visibility := some fun type context => type.name != "Dog" || (context.get? "keeper").isSome

def tom : Json := .obj [("__typename", .str "Cat"), ("name", .str "Tom")]

/-- The only pet is a cat. -/
def menagerie : Registry where
  resolvers := [("Query.pets", { resolve := fun _ _ _ _ => .ready (.value (.arr [tom])) })]
  fallback := some { resolve := fun parent _ _ info =>
                       .ready (.value ((parent.member? info.fieldName).getD .null)) }

/-- The names of the pets of a kind. -/
def petting (condition : String) : Request where
  document :=
    { operations := [{ selections :=
        [.field { name := "pets", selections :=
          [.field { name := "__typename" },
            .inline (some condition) [] [.field { name := "name" }]] }] }] }

theorem execute_petting :
    (({ registry := menagerie } : Executor).execute kennel (petting "Cat") 30).map
      (Except.map fun execution => execution.response.data) =
      some (.ok (.obj [("pets", .arr [tom])])) := by
  cbv

/-- Who is no keeper cannot even ask for dogs. -/
example : (({ registry := menagerie } : Executor).execute kennel (petting "Dog") 30).map
    (Except.map fun execution => execution.response.data) = some (.error (.unknownType "Dog")) := by
  cbv

end Sample

namespace Executor

/-- The theorem at a cat, for one who does not see that there are dogs. -/
theorem dogs_not_entered :
    ∃ env machine last steps,
      Executor.start { registry := Sample.menagerie } Sample.kennel (Sample.petting "Cat") =
        .ok (env, machine) ∧ Machine.Run env steps machine last ∧
      last.state.tree.response.data = .obj [("pets", .arr [Sample.tom])] ∧
      last.RespectsVisibility env ∧ env.Bars "Dog" := by
  obtain ⟨execution, hreaches, hdata⟩ := Reaches.of_execute Sample.execute_petting
  cases hreaches with
  | @ended env machine last steps _ hs hr he =>
    obtain ⟨hrespects, hbars⟩ := hidden_types_not_entered _ _ _ (by decide) hs hr
    obtain ⟨-, rfl⟩ := Machine.execution_of_result he
    refine ⟨env, machine, last, steps, hs, hr, hdata, hrespects, hbars "Dog" ?_⟩
    obtain ⟨operation, rootType, ho, -, rfl, -⟩ := start_found hs
    obtain rfl := Except.ok.inj ho
    rfl

end Executor

end GraphQL
