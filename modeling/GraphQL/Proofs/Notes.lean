import GraphQL.Proofs.Chronicle

/-!
# What steps note

A step notes few things, each of them at the places of the piece of work that takes it. What holds
of an event because of the work that noted it is shown by cases on `Work.Note`.
-/

namespace GraphQL

/-- Where an event happens. -/
def Event.path : Event → Path
  | declared path _ => path
  | wrote path _ _ _ => path
  | opened path _ _ => path
  | called path _ _ _ _ _ => path
  | authorized path _ _ => path
  | started path _ => path
  | slept path _ => path
  | woke path _ => path
  | settled path _ _ => path

namespace Work

open Strand

/-- The object on which work is done. -/
def frame? : Work → Option ObjectFrame
  | select frame _ _ => some frame
  | prepare frame _ _ _ => some frame
  | field frame _ _ => some frame
  | _ => none

/-- What a piece of work may note in a step with an outcome. -/
inductive Note (env : Environment) (piece : Work) (outcome : Task) : Event → Prop where
  | declared {path : Path} (hp : path ∈ piece.fresh) (type : TypeRef) :
      Note env piece outcome (.declared path type)
  | opened {path : Path} (hp : path ∈ piece.uncalled) (typeName fieldName : String) :
      Note env piece outcome (.opened path typeName fieldName)
  | called {frame : ObjectFrame} {key : String} (hf : piece.frame? = some frame)
      (hp : frame.path.key key ∈ piece.uncalled) (fieldName : String) (resolver : Resolver)
      (source : ResolverSource) :
      Note env piece outcome
        (.called (frame.path.key key) frame.type.name fieldName frame.value resolver source)
  | object {frame : ObjectFrame} (hf : piece.frame? = some frame) (hp : frame.path ∈ piece.begun)
      (keys : List String) (landed : Bool) :
      Note env piece outcome (.wrote frame.path (.object keys) false landed)
  | value {site : Site} (hs : site ∈ piece.sites env) {entry : Entry}
      (he : ∀ keys, entry ≠ .object keys) (propagating landed : Bool) :
      Note env piece outcome (.wrote site.path entry propagating landed)
  | element {site : Site} (hs : site ∈ piece.sites env) (place : Nat) (type : TypeRef) :
      Note env piece outcome (.declared (site.path.index place) type)
  | authorized {site : Site} (hs : site ∈ piece.sites env) (typeName : String) (raw : Json) :
      Note env piece outcome (.authorized site.path typeName raw)
  | started {site : Site} (hs : site ∈ piece.sites env) (authorizing : Bool) :
      Note env piece outcome (.started site.path authorizing)
  | slept {site : Site} (hs : site ∈ piece.sites env) (authorizing : Bool) :
      Note env piece outcome (.slept site.path authorizing)
  | woke {site : Site} (hs : site ∈ piece.sites env) (authorizing : Bool) :
      Note env piece outcome (.woke site.path authorizing)
  | settled {site : Site} {purpose : Purpose} {value : FieldValue} (hs : site ∈ piece.sites env)
      (ho : outcome = .work (.resume site purpose value)) :
      Note env piece outcome (.settled site.path purpose.isAuthorizing value)

variable {env : Environment} {state : State} {piece : Work} {deeds : List Deed} {outcome : Task}

/-- Calling the resolver of a field notes what happens at the field. -/
theorem notes_fieldDeeds {frame : ObjectFrame} {group : FieldGroup} (hf : piece.frame? = some frame)
    (hp : frame.path.key group.key ∈ piece.uncalled) (found : FieldLookup) (type : TypeRef) :
    ∀ deed ∈ fieldDeeds env frame group found type, deed.Notes (piece.Note env outcome) :=
  forall_fieldDeeds (.opened hp _ _) (fun _ _ => .called hf hp _ _ _) trivial

/-- Completing a value notes what happens at its site and at the elements of a list. -/
theorem notes_shaped {site : Site} (hs : site ∈ piece.sites env) (shaped : Shaped) :
    ∀ deed ∈ shaped.deeds env site, deed.Notes (piece.Note env outcome) := by
  intro deed hdeed
  cases shaped with
  | null errors =>
    rcases List.mem_cons.mp hdeed with rfl | hdeed
    · trivial
    · rw [List.mem_singleton.mp hdeed]
      exact fun landed => .value hs (by simp) _ landed
  | leaf output =>
    rw [List.mem_singleton.mp hdeed]
    exact fun landed => .value hs (by simp) _ landed
  | list itemType items =>
    rcases List.mem_cons.mp hdeed with rfl | hdeed
    · exact fun landed => .value hs (by simp) _ landed
    · obtain ⟨element, he, rfl⟩ := List.mem_map.mp hdeed
      obtain ⟨place, -, rfl⟩ := List.mem_map.mp he
      exact .element hs place itemType
  | object type value =>
    rw [Shaped.deeds, Shaped.asked] at hdeed
    split at hdeed
    · exact List.mem_singleton.mp hdeed ▸ .authorized hs _ _
    · cases hdeed
  | fault raised => cases hdeed

theorem Step.notes (h : Step env state piece deeds outcome) :
    ∀ deed ∈ deeds, deed.Notes (piece.Note env outcome) := by
  cases h with
  | gatherFault | prepared | prepareFault | prepareAdmit | fieldFault | fieldAdmit | skip | content
  | enter =>
    exact fun _ hd => nomatch hd
  | gather =>
    intro deed hd
    rw [List.mem_singleton.mp hd]
    exact fun landed => .object rfl (List.mem_singleton_self _) _ landed
  | prepareDeclare =>
    intro deed hd
    rw [List.mem_singleton.mp hd]
    exact .declared List.mem_cons_self _
  | fieldDeclare =>
    intro deed hd
    rw [List.mem_singleton.mp hd]
    exact .declared (List.mem_singleton_self _) _
  | prepare => exact notes_fieldDeeds rfl List.mem_cons_self _ _
  | field => exact notes_fieldDeeds rfl (List.mem_singleton_self _) _ _
  | ready | settle =>
    intro deed hd
    rw [List.mem_singleton.mp hd]
    exact .settled (List.mem_singleton_self _) rfl
  | queue | report =>
    intro deed hd
    rw [List.mem_singleton.mp hd]
    trivial
  | start =>
    intro deed hd
    rw [List.mem_singleton.mp hd]
    exact .started (List.mem_singleton_self _) _
  | wake =>
    intro deed hd
    rw [List.mem_singleton.mp hd]
    exact .woke (List.mem_singleton_self _) _
  | sleep =>
    intro deed hd
    rw [List.mem_singleton.mp hd]
    exact .slept (List.mem_singleton_self _) _
  | null | refuse =>
    intro deed hd
    rcases List.mem_cons.mp hd with rfl | hd
    · trivial
    · rw [List.mem_singleton.mp hd]
      exact fun landed => .value (List.mem_singleton_self _) (by simp) _ landed
  | complete => exact notes_shaped (List.mem_singleton_self _) _

theorem Prunes.notes (h : Prunes env state piece deeds outcome) :
    ∀ deed ∈ deeds, deed.Notes (piece.Note env outcome) := by
  cases h <;> exact fun _ hd => nomatch hd

theorem notes_of_account
    (h : Step env state piece deeds outcome ∨ Prunes env state piece deeds outcome) :
    ∀ deed ∈ deeds, deed.Notes (piece.Note env outcome) :=
  h.elim Step.notes Prunes.notes

theorem begun_of_announced {frame : ObjectFrame} {group : FieldGroup} {phase : Phase} {site : Site}
    (h : site ∈ announced env frame group phase) (paths : List Path) :
    site.path ∈ (frame.path.key group.key :: paths).take phase.declared := by
  rw [path_of_announced h]
  cases phase with
  | declare => cases h
  | check | call => exact List.mem_cons_self

theorem begun_of_site {site : Site} (h : site ∈ piece.sites env) : site.path ∈ piece.begun := by
  have hprepared : ∀ {prepared : List (Site × Resolution)} {paths : List Path},
      site ∈ prepared.map Prod.fst →
        site.path ∈ (prepared.map fun entry => entry.1.path) ++ paths := by
    intro prepared paths hm
    obtain ⟨entry, he, rfl⟩ := List.mem_map.mp hm
    exact List.mem_append_left _ (List.mem_map_of_mem he)
  cases piece with
  | select => cases h
  | field => exact begun_of_announced h []
  | prepare frame phase groups prepared =>
    cases groups with
    | nil => exact hprepared h
    | cons group rest =>
      rcases List.mem_append.mp h with h | h
      · exact hprepared h
      · exact List.mem_append_right _ (begun_of_announced h _)
  | settle | await | resume | complete =>
    obtain rfl := List.mem_singleton.mp h
    exact List.mem_singleton_self _

/-- Whatever work notes happens at its own places or inside of them. -/
theorem Note.below {event : Event} (h : piece.Note env outcome event) :
    ∃ top ∈ piece.owned, top <+: event.path := by
  have hbegun : ∀ {site : Site}, site ∈ piece.sites env → site.path ∈ piece.owned :=
    fun hs => begun_subset_owned piece (begun_of_site hs)
  cases h with
  | declared hp => exact ⟨_, fresh_subset_owned piece hp, List.prefix_refl _⟩
  | opened hp | called _ hp => exact ⟨_, uncalled_subset_owned piece hp, List.prefix_refl _⟩
  | object _ hp => exact ⟨_, begun_subset_owned piece hp, List.prefix_refl _⟩
  | element hs => exact ⟨_, hbegun hs, List.prefix_append _ _⟩
  | value hs | authorized hs | started hs | slept hs | woke hs | settled hs =>
    exact ⟨_, hbegun hs, List.prefix_refl _⟩

/-- Resolvers are called for fields that are still to be called. -/
theorem Note.called_uncalled {event : Event} (h : piece.Note env outcome event) {place : Path}
    (hc : event.called? = some place) : place ∈ piece.uncalled := by
  cases h with
  | called hf hp => exact Option.some.inj hc ▸ hp
  | _ => cases hc

end Work

end GraphQL
