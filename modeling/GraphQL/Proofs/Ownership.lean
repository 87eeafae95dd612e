import GraphQL.Proofs.Collapse
import GraphQL.Proofs.Gathered
import GraphQL.Proofs.Runs
import Mathlib.Data.List.Flatten

/-!
# Ownership

Every piece of work owns the places that it is to fill. Along a run these places stay open, lead
nowhere through each other, and the values under way at them have the types that were declared. A
step of work gives up its places for places inside of them and leaves those of others alone.
-/

namespace GraphQL

namespace Work

/-- The places that work is to fill. -/
def owned : Work → List Path
  | select frame _ _ => [frame.path]
  | prepare frame _ groups prepared =>
    prepared.map (fun entry => entry.1.path) ++ groups.map fun group => frame.path.key group.key
  | field frame _ group => [frame.path.key group.key]
  | settle site _ _ => [site.path]
  | await site _ _ _ _ => [site.path]
  | resume site _ _ => [site.path]
  | complete site _ => [site.path]

variable (env : Environment)

/-- The site of a field whose type has been declared while its resolver is still to be called. -/
def announced (frame : ObjectFrame) (group : FieldGroup) : Phase → List Site
  | .declare => []
  | _ =>
    match Reference.lookup env frame group with
    | .error _ => []
    | .ok (found, type) => [Reference.site env frame group found type]

/-- The sites of the values that are under way. -/
def sites : Work → List Site
  | select _ _ _ => []
  | prepare frame phase (group :: _) prepared =>
    prepared.map Prod.fst ++ announced env frame group phase
  | prepare _ _ [] prepared => prepared.map Prod.fst
  | field frame phase group => announced env frame group phase
  | settle site _ _ => [site]
  | await site _ _ _ _ => [site]
  | resume site _ _ => [site]
  | complete site _ => [site]

variable {env}

theorem announced_of_lookup {frame : ObjectFrame} {group : FieldGroup} {phase : Phase}
    {found : FieldLookup} {type : TypeRef} (hphase : phase ≠ .declare)
    (hl : Reference.lookup env frame group = .ok (found, type)) :
    announced env frame group phase = [Reference.site env frame group found type] := by
  cases phase with
  | declare => exact absurd rfl hphase
  | check | call => simp only [announced, hl]

theorem path_of_announced {frame : ObjectFrame} {group : FieldGroup} {phase : Phase} {site : Site}
    (h : site ∈ announced env frame group phase) : site.path = frame.path.key group.key := by
  cases phase with
  | declare => cases h
  | check | call =>
    simp only [announced] at h
    split at h
    · cases h
    · rw [List.mem_singleton.mp h]
      rfl

theorem sites_declare (frame : ObjectFrame) (groups : List FieldGroup)
    (prepared : List (Site × Resolution)) :
    (prepare frame .declare groups prepared).sites env = prepared.map Prod.fst := by
  cases groups with
  | nil => rfl
  | cons group rest => exact List.append_nil _

theorem path_mem_owned {piece : Work} {site : Site} (h : site ∈ piece.sites env) :
    site.path ∈ piece.owned := by
  have hprepared : ∀ {prepared : List (Site × Resolution)} {paths : List Path},
      site ∈ prepared.map Prod.fst →
        site.path ∈ prepared.map (fun entry => entry.1.path) ++ paths := by
    intro prepared paths hm
    obtain ⟨entry, he, rfl⟩ := List.mem_map.mp hm
    exact List.mem_append_left _ (List.mem_map.mpr ⟨entry, he, rfl⟩)
  cases piece with
  | select => cases h
  | prepare frame phase groups prepared =>
    cases groups with
    | nil => exact hprepared h
    | cons group rest =>
      rcases List.mem_append.mp h with h | h
      · exact hprepared h
      · rw [path_of_announced h]
        exact List.mem_append_right _ List.mem_cons_self
  | field => exact List.mem_singleton.mpr (path_of_announced h)
  | settle | await | resume | complete =>
    obtain rfl := List.mem_singleton.mp h
    exact List.mem_singleton.mpr rfl

end Work

namespace ResultTree

/-- Trees with the same data and the same declared types. -/
structure Alike (a b : ResultTree) : Prop where
  data : b.data = a.data
  types : b.types = a.types

namespace Alike

variable {a b : ResultTree}

theorem refl (a : ResultTree) : Alike a a := ⟨rfl, rfl⟩

theorem declaredType?_eq (h : Alike a b) : b.declaredType? = a.declaredType? := by
  funext path
  rw [declaredType?, declaredType?, h.types]

theorem isRequired_eq (h : Alike a b) : b.isRequired = a.isRequired := by
  funext path
  rw [isRequired, isRequired, h.declaredType?_eq]

theorem regular (h : Alike a b) (hr : a.Regular) : b.Regular := by
  refine ⟨h.data ▸ hr.distinct, h.isRequired_eq ▸ hr.root, fun path hn => ?_⟩
  rw [h.isRequired_eq]
  exact hr.nulls path (h.data ▸ hn)

end Alike

theorem alike_report (tree : ResultTree) (errors : List ResponseError) :
    tree.Alike (tree.report errors) := ⟨rfl, rfl⟩

theorem report_write (tree : ResultTree) (errors : List ResponseError) (path : Path) (entry : Entry)
    (propagating : Bool) :
    (tree.report errors).write path entry propagating =
      (tree.write path entry propagating).report errors := by
  have hpoint : (tree.report errors).collapsePoint path = tree.collapsePoint path := rfl
  cases propagating with
  | false =>
    simp only [write, write?, place?, Bool.false_eq_true, if_false, report]
    cases Slot.update? _ path tree.data <;> rfl
  | true =>
    simp only [write, write?, collapse?, if_true, hpoint]
    cases tree.collapsePoint path with
    | nil => rfl
    | cons segment rest =>
      simp only [report]
      cases Slot.update? _ (segment :: rest) tree.data <;> rfl

theorem declaredType?_record (tree : ResultTree) (path : Path) (type : TypeRef) (other : Path) :
    (tree.record path type).declaredType? other =
      if path = other then some type else tree.declaredType? other := by
  by_cases h : path = other <;> simp [declaredType?, record, h]

theorem isRequired_of_declared {tree : ResultTree} {path : Path} {type : TypeRef}
    (h : tree.declaredType? path = some type) : tree.isRequired path = type.isNonNull := by
  rw [isRequired, h]

/-- Records the declared types of the values at sites. -/
def recordAll (tree : ResultTree) (sites : List Site) : ResultTree :=
  sites.foldl (fun tree site => tree.record site.path site.type) tree

theorem recordAll_data (tree : ResultTree) (sites : List Site) :
    (tree.recordAll sites).data = tree.data := by
  induction sites generalizing tree with
  | nil => rfl
  | cons site rest ih => exact ih _

theorem declaredType?_recordAll_other {tree : ResultTree} {sites : List Site} {path : Path}
    (h : ∀ site ∈ sites, site.path ≠ path) :
    (tree.recordAll sites).declaredType? path = tree.declaredType? path := by
  induction sites generalizing tree with
  | nil => rfl
  | cons site rest ih =>
    refine (ih fun other ho => h other (List.mem_cons_of_mem _ ho)).trans ?_
    rw [declaredType?_record, if_neg (h site List.mem_cons_self)]

theorem declaredType?_recordAll_same {tree : ResultTree} {sites : List Site} {type : TypeRef}
    {path : Path} (ht : ∀ site ∈ sites, site.type = type)
    (h : tree.declaredType? path = some type) :
    (tree.recordAll sites).declaredType? path = some type := by
  induction sites generalizing tree with
  | nil => exact h
  | cons site rest ih =>
    refine ih (fun other ho => ht other (List.mem_cons_of_mem _ ho)) ?_
    rw [declaredType?_record, ht site List.mem_cons_self, h, ite_self]

/-- Sites of one type are declared with it. -/
theorem declaredType?_recordAll {tree : ResultTree} {sites : List Site} {type : TypeRef}
    (ht : ∀ site ∈ sites, site.type = type) {site : Site} (hs : site ∈ sites) :
    (tree.recordAll sites).declaredType? site.path = some type := by
  induction sites generalizing tree with
  | nil => cases hs
  | cons first rest ih =>
    have hrest := fun other ho => ht other (List.mem_cons_of_mem _ ho)
    rcases List.mem_cons.mp hs with rfl | hs
    · have hfirst : (tree.record site.path site.type).declaredType? site.path = some type := by
        rw [declaredType?_record, if_pos rfl, ht site List.mem_cons_self]
      have hall := declaredType?_recordAll_same hrest hfirst
      exact hall
    · exact ih hrest hs

theorem Regular.recordAll {tree : ResultTree} (hr : tree.Regular) {sites : List Site}
    (h : ∀ site ∈ sites, tree.data.Open site.path ∧ site.path ≠ []) :
    (tree.recordAll sites).Regular := by
  induction sites generalizing tree with
  | nil => exact hr
  | cons site rest ih =>
    have hsite := h site List.mem_cons_self
    exact ih (hr.record hsite.1 hsite.2 _) fun other ho => h other (List.mem_cons_of_mem _ ho)

end ResultTree

structure Coherent (env : Environment) (tree : ResultTree) (pieces : List Work) : Prop where
  regular : tree.Regular
  isOpen : ∀ path ∈ pieces.flatMap Work.owned, tree.data.Open path
  apart : (pieces.flatMap Work.owned).Pairwise Path.Apart
  declared : ∀ piece ∈ pieces, ∀ site ∈ piece.sites env,
    site.path ≠ [] ∧ tree.declaredType? site.path = some site.type

/-- `Succession env tree own next pieces`: work that owned these places leaves the pieces to do and
turns the tree into `next`. -/
structure Succession (env : Environment) (tree : ResultTree) (own : List Path) (next : ResultTree)
    (pieces : List Work) : Prop where
  coherent : Coherent env next pieces
  below : ∀ path ∈ pieces.flatMap Work.owned, ∃ top ∈ own, top <+: path
  others : ∀ other, (∀ top ∈ own, top.Apart other) → tree.data.Open other → next.data.Open other
  types : ∀ other, (∀ top ∈ own, top.Apart other) →
    next.declaredType? other = tree.declaredType? other

namespace Coherent

variable {env : Environment} {tree next : ResultTree} {piece : Work}
  {left right pieces : List Work}

theorem sublist (h : Coherent env tree pieces) {part : List Work} (hs : part.Sublist pieces) :
    Coherent env tree part where
  regular := h.regular
  isOpen path hp := h.isOpen path ((hs.flatMap _).mem hp)
  apart := h.apart.sublist (hs.flatMap _)
  declared piece hm := h.declared piece (hs.mem hm)

theorem single (h : Coherent env tree (left ++ piece :: right)) : Coherent env tree [piece] :=
  h.sublist (by simp)

/-- The places of other pieces of work lie apart from those of a piece. -/
theorem others (h : Coherent env tree (left ++ piece :: right)) {other : Work}
    (ho : other ∈ left ++ right) {path : Path} (hp : path ∈ other.owned) :
    ∀ top ∈ piece.owned, top.Apart path := by
  intro top ht
  have ha := h.apart
  simp only [List.flatMap_append, List.flatMap_cons, List.pairwise_append] at ha
  obtain ⟨-, ⟨-, -, hright⟩, hleft⟩ := ha
  rcases List.mem_append.mp ho with ho | ho
  · exact (hleft path (List.mem_flatMap.mpr ⟨other, ho, hp⟩) top (List.mem_append_left _ ht)).symm
  · exact hright top ht path (List.mem_flatMap.mpr ⟨other, ho, hp⟩)

theorem replace (h : Coherent env tree (left ++ piece :: right))
    (hs : Succession env tree piece.owned next pieces) :
    Coherent env next (left ++ pieces ++ right) := by
  have hothers : ∀ other ∈ left ++ right, ∀ path ∈ other.owned, ∀ top ∈ piece.owned,
      top.Apart path := fun other ho path hp => h.others ho hp
  have hopen : ∀ other ∈ left ++ right, ∀ path ∈ other.owned, next.data.Open path := by
    intro other ho path hp
    refine hs.others path (hothers other ho path hp) (h.isOpen path ?_)
    rcases List.mem_append.mp ho with ho | ho
    · exact List.mem_flatMap.mpr ⟨other, List.mem_append_left _ ho, hp⟩
    · exact List.mem_flatMap.mpr ⟨other, List.mem_append_right _ (List.mem_cons_of_mem _ ho), hp⟩
  have hnew : ∀ path ∈ pieces.flatMap Work.owned, ∀ other ∈ left ++ right,
      ∀ foreign ∈ other.owned, path.Apart foreign := by
    intro path hp other ho foreign hf
    obtain ⟨top, ht, rest, rfl⟩ := hs.below path hp
    exact (hothers other ho foreign hf top ht).append rest
  have ha := h.apart
  simp only [List.flatMap_append, List.flatMap_cons, List.pairwise_append] at ha
  obtain ⟨haleft, ⟨-, haright, -⟩, hacross⟩ := ha
  refine ⟨hs.coherent.regular, ?_, ?_, ?_⟩
  · intro path hp
    obtain ⟨other, ho, hp⟩ := List.mem_flatMap.mp hp
    rcases List.mem_append.mp ho with ho | ho
    · rcases List.mem_append.mp ho with ho | ho
      · exact hopen other (List.mem_append_left _ ho) path hp
      · exact hs.coherent.isOpen path (List.mem_flatMap.mpr ⟨other, ho, hp⟩)
    · exact hopen other (List.mem_append_right _ ho) path hp
  · simp only [List.flatMap_append, List.pairwise_append]
    refine ⟨⟨haleft, hs.coherent.apart, ?_⟩, haright, ?_⟩
    · intro path hp other ho
      obtain ⟨owner, hm, hp⟩ := List.mem_flatMap.mp hp
      exact (hnew other ho owner (List.mem_append_left _ hm) path hp).symm
    · intro path hp other ho
      obtain ⟨owner, hm, hpo⟩ := List.mem_flatMap.mp ho
      rcases List.mem_append.mp hp with hp | hp
      · exact hacross path hp other (List.mem_append_right _ ho)
      · exact hnew path hp owner (List.mem_append_right _ hm) other hpo
  · intro other ho site hsite
    have hforeign : other ∈ left ++ right → site.path ≠ [] ∧
        next.declaredType? site.path = some site.type := by
      intro hm
      have hd : site.path ≠ [] ∧ tree.declaredType? site.path = some site.type := by
        refine h.declared other ?_ site hsite
        rcases List.mem_append.mp hm with hm | hm
        · exact List.mem_append_left _ hm
        · exact List.mem_append_right _ (List.mem_cons_of_mem _ hm)
      rw [hs.types site.path (hothers other hm _ (Work.path_mem_owned hsite))]
      exact hd
    rcases List.mem_append.mp ho with ho | ho
    · rcases List.mem_append.mp ho with ho | ho
      · exact hforeign (List.mem_append_left _ ho)
      · exact hs.coherent.declared other ho site hsite
    · exact hforeign (List.mem_append_right _ ho)

end Coherent

namespace Succession

variable {env : Environment} {tree next : ResultTree} {piece : Work} {pieces : List Work}
  {path : Path}

/-- Work that leaves the data and the declared types alone. -/
theorem quiet (h : Coherent env tree [piece]) (ha : tree.Alike next)
    (ho : (pieces.flatMap Work.owned).Sublist piece.owned)
    (hs : ∀ left ∈ pieces, ∀ site ∈ left.sites env, site ∈ piece.sites env) :
    Succession env tree piece.owned next pieces where
  coherent :=
    { regular := ha.regular h.regular
      isOpen := fun path hp => ha.data ▸ h.isOpen path (by simpa using ho.mem hp)
      apart := by
        have := h.apart
        rw [List.flatMap_singleton] at this
        exact this.sublist ho
      declared := fun left hl site hsite => by
        rw [ha.declaredType?_eq]
        exact h.declared piece (List.mem_singleton.mpr rfl) site (hs left hl site hsite) }
  below path hp := ⟨path, ho.mem hp, List.prefix_refl path⟩
  others other _ hopen := ha.data ▸ hopen
  types other _ := by rw [ha.declaredType?_eq]

/-- A piece of work that goes on as another one. -/
theorem goOn (h : Coherent env tree [piece]) (ha : tree.Alike next) {left : Work}
    (ho : left.owned.Sublist piece.owned) (hs : left.sites env ⊆ piece.sites env) :
    Succession env tree piece.owned next [left] :=
  quiet h ha (by simpa using ho) fun _ hl => List.mem_singleton.mp hl ▸ hs

/-- Work that declares the type of one of its places. -/
theorem declare (h : Coherent env tree [piece]) {type : TypeRef}
    (ha : (tree.record path type).Alike next) (hp : path ∈ piece.owned) (hne : path ≠ [])
    (ho : (pieces.flatMap Work.owned).Sublist piece.owned)
    (hs : ∀ left ∈ pieces, ∀ site ∈ left.sites env,
      site ∈ piece.sites env ∧ site.path ≠ path ∨ site.path = path ∧ site.type = type) :
    Succession env tree piece.owned next pieces where
  coherent :=
    { regular := ha.regular
        (h.regular.record (h.isOpen path (by simpa using hp)) hne type)
      isOpen := fun other hother => ha.data ▸ h.isOpen other (by simpa using ho.mem hother)
      apart := by
        have := h.apart
        rw [List.flatMap_singleton] at this
        exact this.sublist ho
      declared := fun left hl site hsite => by
        rw [ha.declaredType?_eq, ResultTree.declaredType?_record]
        rcases hs left hl site hsite with ⟨hsite, hn⟩ | ⟨he, ht⟩
        · rw [if_neg (Ne.symm hn)]
          exact h.declared piece (List.mem_singleton.mpr rfl) site hsite
        · rw [if_pos he.symm, ht, he]
          exact ⟨hne, rfl⟩ }
  below other hother := ⟨other, ho.mem hother, List.prefix_refl other⟩
  others other _ hopen := ha.data ▸ hopen
  types other hother := by
    rw [ha.declaredType?_eq, ResultTree.declaredType?_record, if_neg]
    rintro rfl
    exact (hother path hp).1 (List.prefix_refl path)

/-- Work that writes at its only place. What it leaves owns the places inside of the entry. -/
theorem write (segments : List PathSegment) (ho : piece.owned = [path]) {entry : Entry}
    {propagating : Bool} {written : ResultTree}
    (hw : tree.Written path entry propagating written) (hr : next.Regular)
    (hd : next.data = written.data)
    (ht : ∀ other, path.Apart other → next.declaredType? other = tree.declaredType? other)
    (hp : pieces.flatMap Work.owned = segments.map (path ++ [·]))
    (hn : segments.Nodup)
    (hs : ∀ segment ∈ segments, propagating = false ∧ entry.slot.at? [segment] = some .pending)
    (hsites : ∀ left ∈ pieces, ∀ site ∈ left.sites env,
      site.path ≠ [] ∧ next.declaredType? site.path = some site.type) :
    Succession env tree piece.owned next pieces where
  coherent :=
    { regular := hr
      isOpen := by
        intro other hother
        rw [hp] at hother
        obtain ⟨segment, hm, rfl⟩ := List.mem_map.mp hother
        obtain ⟨rfl, hpending⟩ := hs segment hm
        rw [hd]
        exact hw.child hpending
      apart := by
        rw [hp, List.pairwise_map]
        exact hn.imp fun hne => Path.apart_of_ne hne
      declared := hsites }
  below other hother := by
    rw [hp] at hother
    obtain ⟨segment, hm, rfl⟩ := List.mem_map.mp hother
    exact ⟨path, by simp [ho], List.prefix_append _ _⟩
  others other hother hopen := by
    rw [hd]
    exact hw.isOpen hopen (hother path (by simp [ho]))
  types other hother := ht other (hother path (by simp [ho]))

end Succession

namespace State

variable (state : State)

@[simp] theorem perform_report (errors : List ResponseError) :
    (state.perform (.report errors)).tree = state.tree.report errors := rfl
@[simp] theorem perform_declare (path : Path) (type : TypeRef) :
    (state.perform (.declare path type)).tree = state.tree.record path type := rfl
@[simp] theorem perform_write (path : Path) (entry : Entry) (propagating : Bool) :
    (state.perform (.write path entry propagating)).tree =
      state.tree.write path entry propagating := rfl
@[simp] theorem perform_note (event : Event) :
    (state.perform (.note event)).tree = state.tree := rfl
@[simp] theorem perform_draw : (state.perform .draw).tree = state.tree := rfl

end State

/-- True of deeds that neither declare nor write. -/
def Deed.IsQuiet : Deed → Prop
  | .declare _ _ => False
  | .write _ _ _ => False
  | _ => True

namespace State

theorem alike_of_quiet {deeds : List Deed} (h : ∀ deed ∈ deeds, deed.IsQuiet) (state : State) :
    state.tree.Alike (state.performAll deeds).tree := by
  induction deeds generalizing state with
  | nil => exact .refl _
  | cons deed rest ih =>
    have hrest := ih (fun other ho => h other (List.mem_cons_of_mem _ ho)) (state.perform deed)
    have hfirst : state.tree.Alike (state.perform deed).tree := by
      cases deed with
      | declare path type => exact absurd (h _ List.mem_cons_self) id
      | write path entry propagating => exact absurd (h _ List.mem_cons_self) id
      | report | note | draw => exact ⟨rfl, rfl⟩
    exact ⟨hrest.data.trans hfirst.data, hrest.types.trans hfirst.types⟩

theorem tree_declareAll (state : State) (sites : List Site) :
    (state.performAll (sites.map fun site => .declare site.path site.type)).tree =
      state.tree.recordAll sites := by
  induction sites generalizing state with
  | nil => rfl
  | cons site rest ih => exact ih _

end State

namespace Work

open Strand

@[simp] theorem works_done : works Task.done.strands = [] := rfl
@[simp] theorem works_fault (raised : Fault) : works (Task.fault raised).strands = [] := rfl
@[simp] theorem works_work (piece : Work) : works (Task.work piece).strands = [piece] := rfl
@[simp] theorem works_inOrder (pieces : List Work) :
    works (Task.inOrder (pieces.map .work)).strands = pieces := by
  rw [Task.strands_inOrder_work, works_map_ok]
@[simp] theorem works_dispatch (limit depth : Nat) (pieces : List Work) :
    works (Task.dispatch limit depth (pieces.map .work)).strands = pieces := by
  rw [Task.strands_dispatch_work, works_map_ok]

variable {env : Environment} {state : State} {piece : Work} {deeds : List Deed} {outcome : Task}

section Left

variable {P : Work → Prop}

theorem forall_works_work {piece : Work} (h : P piece) :
    ∀ left ∈ works (Task.work piece).strands, P left := List.forall_mem_singleton.mpr h

/-- The fields that have been gathered are left to one piece of work, or to one each. -/
theorem forall_works_gathered {frame : ObjectFrame} {groups : List FieldGroup} {serial : Bool}
    (hprepare : P (.prepare frame .declare groups []))
    (hfield : ∀ group ∈ groups, P (.field frame .declare group)) :
    ∀ left ∈ works (if serial then Task.inOrder ((groups.map (.field frame .declare)).map .work)
      else .work (.prepare frame .declare groups [])).strands, P left := by
  intro left hl
  cases serial with
  | true =>
    rw [if_pos rfl, works_inOrder] at hl
    obtain ⟨group, hm, rfl⟩ := List.mem_map.mp hl
    exact hfield group hm
  | false =>
    obtain rfl := List.mem_singleton.mp hl
    exact hprepare

theorem forall_works_prepared {limit depth : Nat} {prepared : List (Site × Resolution)}
    (h : ∀ entry ∈ prepared, P (.settle entry.1 .complete entry.2)) :
    ∀ left ∈ works (Task.dispatch limit depth
      ((prepared.map fun entry => Work.settle entry.1 .complete entry.2).map .work)).strands,
      P left := by
  intro left hl
  rw [works_dispatch] at hl
  obtain ⟨entry, hm, rfl⟩ := List.mem_map.mp hl
  exact h entry hm

/-- Completing a value leaves the elements of a list, or the authorization of an object. -/
theorem forall_works_shaped {site : Site} {shaped : Shaped}
    (hlist : ∀ itemType items, shaped = .list itemType items → ∀ place resolution,
      items[place]? = some resolution →
        P (.settle (site.item itemType place) .complete resolution))
    (hobject : ∀ type value, shaped = .object type value →
      P (.settle site (.enter type) (env.registry.authorize type value env.context))) :
    ∀ left ∈ works (shaped.outcome env site).strands, P left := by
  intro left hl
  cases shaped with
  | null | leaf | fault => cases hl
  | list itemType items =>
    rw [Shaped.outcome, works_dispatch] at hl
    obtain ⟨element, hm, rfl⟩ := List.mem_map.mp hl
    obtain ⟨place, hsite, hitem⟩ := Reference.mem_zip_elements hm
    rw [hsite]
    exact hlist itemType items rfl place _ hitem
  | object type value =>
    obtain rfl := List.mem_singleton.mp hl
    exact hobject type value rfl

end Left

theorem quiet_fieldDeeds (frame : ObjectFrame) (group : FieldGroup) (found : FieldLookup)
    (type : TypeRef) : ∀ deed ∈ fieldDeeds env frame group found type, deed.IsQuiet :=
  forall_fieldDeeds trivial (fun _ _ => trivial) trivial

/-- Calling the resolver of a field leaves the data and the types alone. -/
theorem alike_fieldDeeds (frame : ObjectFrame) (group : FieldGroup) (found : FieldLookup)
    (type : TypeRef) :
    state.tree.Alike (state.performAll (fieldDeeds env frame group found type)).tree :=
  State.alike_of_quiet (quiet_fieldDeeds frame group found type) state

theorem alike_asked (site : Site) (type : ObjectDef) (value : Json) :
    state.tree.Alike (state.performAll ((Shaped.object type value).deeds env site)).tree := by
  rw [Shaped.deeds, Shaped.asked]
  cases env.registry.authorizer? type.name <;> exact ⟨rfl, rfl⟩

theorem path_ne_nil (hc : Coherent env state.tree [piece]) {site : Site}
    (hs : site ∈ piece.sites env) :
    site.path ≠ [] := (hc.declared piece (List.mem_singleton.mpr rfl) site hs).1

theorem isRequired_site (hc : Coherent env state.tree [piece]) {site : Site}
    (hs : site ∈ piece.sites env) :
    state.tree.isRequired site.path = site.type.isNonNull :=
  ResultTree.isRequired_of_declared (hc.declared piece (List.mem_singleton.mpr rfl) site hs).2

theorem written_site (hc : Coherent env state.tree [piece]) {site : Site}
    (hs : site ∈ piece.sites env)
    (entry : Entry) (propagating : Bool) :
    state.tree.Written site.path entry propagating
      (state.tree.write site.path entry propagating) :=
  ResultTree.written hc.regular (hc.isOpen _ (by simpa using path_mem_owned hs)) entry
    fun _ => path_ne_nil hc hs

theorem succession_null (hc : Coherent env state.tree [piece]) {site : Site}
    (ho : piece.owned = [site.path]) (hs : site ∈ piece.sites env) (errors : List ResponseError) :
    Succession env state.tree piece.owned
      (state.performAll [.report errors, .write site.path .null site.type.isNonNull]).tree [] := by
  have hw := written_site hc hs .null site.type.isNonNull
  have hr := hw.regular hc.regular trivial fun _ => isRequired_site hc hs
  have ht : (state.performAll [.report errors, .write site.path .null site.type.isNonNull]).tree =
      (state.tree.write site.path .null site.type.isNonNull).report errors :=
    ResultTree.report_write _ _ _ _ _
  rw [ht]
  refine .write [] ho hw ((ResultTree.alike_report _ _).regular hr) rfl (fun other _ => ?_) rfl
    .nil (fun _ hm => nomatch hm) (fun _ hm => nomatch hm)
  rw [(ResultTree.alike_report _ _).declaredType?_eq, ResultTree.declaredType?,
    ResultTree.declaredType?, hw.types_eq]

theorem succession_leaf (hc : Coherent env state.tree [piece]) {site : Site}
    (ho : piece.owned = [site.path]) (hs : site ∈ piece.sites env) (output : Json) :
    Succession env state.tree piece.owned
      (state.performAll [.write site.path (.leaf output) false]).tree [] := by
  have hw := written_site hc hs (.leaf output) false
  refine .write [] ho hw (hw.regular hc.regular trivial fun h => nomatch h) rfl (fun other _ => ?_)
    rfl .nil (fun _ hm => nomatch hm) (fun _ hm => nomatch hm)
  exact congrArg (fun types => (types.find? fun entry => entry.1 = other).map Prod.snd) hw.types_eq

theorem settling_fst (site : Site) (itemType : TypeRef) (items : List Resolution) :
    ((Reference.elements site itemType items.length).zip items).map Prod.fst =
      Reference.elements site itemType items.length :=
  List.map_fst_zip (by simp [Reference.elements])

theorem owned_settling (site : Site) (itemType : TypeRef) (items : List Resolution) :
    (Shaped.settling site itemType items).flatMap owned =
      (List.range items.length).map site.path.index := by
  have howned : (Shaped.settling site itemType items).flatMap owned =
      (((Reference.elements site itemType items.length).zip items).map Prod.fst).map Site.path := by
    simp [Shaped.settling, List.flatMap_map, owned, ← List.map_eq_flatMap]
  rw [howned, settling_fst, Reference.elements, List.map_map]
  rfl

theorem succession_list (hc : Coherent env state.tree [piece]) {site : Site}
    (ho : piece.owned = [site.path]) (hs : site ∈ piece.sites env) (itemType : TypeRef)
    (items : List Resolution) :
    Succession env state.tree piece.owned
      (state.performAll ((Shaped.list itemType items).deeds env site)).tree
      (Shaped.settling site itemType items) := by
  have hw := written_site hc hs (.list items.length) false
  have hr : (state.tree.write site.path (.list items.length) false).Regular :=
    hw.regular hc.regular trivial fun h => nomatch h
  have htree : (state.performAll ((Shaped.list itemType items).deeds env site)).tree =
      (state.tree.write site.path (.list items.length) false).recordAll
        (Reference.elements site itemType items.length) :=
    State.tree_declareAll _ _
  have hzip : ∀ entry ∈ (Reference.elements site itemType items.length).zip items,
      entry.1 ∈ Reference.elements site itemType items.length :=
    fun entry he => (List.of_mem_zip he).1
  rw [htree]
  refine .write ((List.range items.length).map .index) ho hw (hr.recordAll fun element he => ?_)
    (ResultTree.recordAll_data _ _) (fun other ha => ?_) ?_ ?_ (fun segment hm => ?_)
    (fun left hl element he => ?_)
  · obtain ⟨place, hp, rfl⟩ := Reference.mem_elements he
    exact ⟨hw.child (Entry.at?_index hp), by simp [Site.item, Path.index]⟩
  · rw [ResultTree.declaredType?_recordAll_other, ResultTree.declaredType?,
      ResultTree.declaredType?, hw.types_eq]
    rintro element he rfl
    obtain ⟨place, -, rfl⟩ := Reference.mem_elements he
    exact ha.1 (List.prefix_append _ _)
  · rw [owned_settling, List.map_map]
    rfl
  · exact List.pairwise_map.mpr
      (List.nodup_range.imp fun hne he => hne (PathSegment.index.inj he))
  · obtain ⟨place, hp, rfl⟩ := List.mem_map.mp hm
    exact ⟨rfl, Entry.at?_index (List.mem_range.mp hp)⟩
  · obtain ⟨entry, hentry, rfl⟩ := List.mem_map.mp hl
    obtain rfl := List.mem_singleton.mp he
    have hmem := hzip entry hentry
    obtain ⟨place, -, hplace⟩ := Reference.mem_elements hmem
    have htype : ∀ other ∈ Reference.elements site itemType items.length,
        other.type = itemType := by
      intro other ho
      obtain ⟨place, -, rfl⟩ := Reference.mem_elements ho
      rfl
    rw [ResultTree.declaredType?_recordAll htype hmem, htype _ hmem, hplace]
    exact ⟨by simp [Site.item, Path.index], rfl⟩

theorem owned_prepared (frame : ObjectFrame) (group : FieldGroup) (rest : List FieldGroup)
    (prepared : List (Site × Resolution)) (found : FieldLookup) (type : TypeRef)
    (resolution : Resolution) :
    (prepare frame .declare rest
      (prepared ++ [(Reference.site env frame group found type, resolution)])).owned =
      (prepare frame .call (group :: rest) prepared).owned := by
  simp [owned, Reference.site]

theorem prepared_ne {frame : ObjectFrame} {phase : Phase} {group : FieldGroup}
    {rest : List FieldGroup} {prepared : List (Site × Resolution)}
    (hc : Coherent env state.tree [prepare frame phase (group :: rest) prepared]) {site : Site}
    (hs : site ∈ prepared.map Prod.fst) : site.path ≠ frame.path.key group.key := by
  intro he
  have ha := hc.apart
  simp only [List.flatMap_singleton, owned, List.pairwise_append] at ha
  obtain ⟨entry, hentry, rfl⟩ := List.mem_map.mp hs
  have hapart := ha.2.2 _ (List.mem_map.mpr ⟨entry, hentry, rfl⟩) _ List.mem_cons_self
  exact hapart.1 (he ▸ List.prefix_refl _)

theorem owned_gathered (frame : ObjectFrame) (groups : List FieldGroup) (serial : Bool) :
    (works (if serial then Task.inOrder ((groups.map (.field frame .declare)).map .work)
      else .work (.prepare frame .declare groups [])).strands).flatMap owned =
      (groups.map FieldGroup.key).map frame.path.key := by
  cases serial with
  | true =>
    rw [if_pos rfl, works_inOrder]
    simp [List.flatMap_map, owned, ← List.map_eq_flatMap, Function.comp_def]
  | false => simp [owned, Function.comp_def]

theorem succession_gather {frame : ObjectFrame} {selections : List Selection} {serial : Bool}
    {groups : List FieldGroup} (hc : Coherent env state.tree [select frame selections serial])
    (hg : Gathering.collect env.schema env.document env.context frame.type selections =
      .ok groups) :
    Succession env state.tree [frame.path]
      (state.performAll [.write frame.path (.object (groups.map FieldGroup.key)) false]).tree
      (works (if serial then Task.inOrder ((groups.map (.field frame .declare)).map .work)
        else .work (.prepare frame .declare groups [])).strands) := by
  have hw : state.tree.Written frame.path (.object (groups.map FieldGroup.key)) false _ :=
    ResultTree.written hc.regular (hc.isOpen frame.path (by simp [owned])) _ (by simp)
  have hp : (Entry.object (groups.map FieldGroup.key)).Proper := Gathering.nodup_collect hg
  have hsites : ∀ left ∈ works (if serial then
        Task.inOrder ((groups.map (.field frame .declare)).map .work)
      else .work (.prepare frame .declare groups [])).strands, left.sites env = [] :=
    forall_works_gathered (sites_declare frame groups []) fun _ _ => rfl
  show Succession env state.tree (select frame selections serial).owned _ _
  refine .write ((groups.map FieldGroup.key).map .key) rfl hw
    (hw.regular hc.regular hp (by simp)) rfl (fun other _ => ?_) ?_ ?_
    (fun segment hm => ?_) (fun left hl site hs => ?_)
  · exact congrArg (fun types => (types.find? fun entry => entry.1 = other).map Prod.snd)
      hw.types_eq
  · rw [owned_gathered, List.map_map (f := PathSegment.key)]
    rfl
  · exact List.pairwise_map.mpr (hp.imp fun hne he => hne (PathSegment.key.inj he))
  · obtain ⟨key, hk, rfl⟩ := List.mem_map.mp hm
    exact ⟨rfl, hp.at?_key hk⟩
  · rw [hsites left hl] at hs
    cases hs

theorem succession_shaped (hc : Coherent env state.tree [piece]) {site : Site}
    (ho : piece.owned = [site.path]) (hs : piece.sites env = [site]) (shaped : Shaped) :
    Succession env state.tree piece.owned (state.performAll (shaped.deeds env site)).tree
      (works (shaped.outcome env site).strands) := by
  have hsite : site ∈ piece.sites env := hs ▸ List.mem_singleton_self site
  cases shaped with
  | null errors => exact succession_null hc ho hsite errors
  | leaf output => exact succession_leaf hc ho hsite output
  | list itemType items =>
    rw [Shaped.outcome, works_dispatch]
    exact succession_list hc ho hsite itemType items
  | object type value =>
    exact .goOn hc (alike_asked site type value) (ho ▸ List.Sublist.refl _)
      (hs ▸ List.Subset.refl _)
  | fault raised => exact .quiet hc (.refl _) (List.nil_sublist _) (by simp [Shaped.outcome])

/-- A step keeps the work and the tree that it fills together. -/
theorem Step.succession (h : Step env state piece deeds outcome)
    (hc : Coherent env state.tree [piece]) :
    Succession env state.tree piece.owned (state.performAll deeds).tree (works outcome.strands) := by
  cases h with
  | gatherFault | prepareFault | fieldFault =>
    exact .quiet hc (.refl _) (List.nil_sublist _) (by simp)
  | gather hg => exact succession_gather hc hg
  | prepared =>
    refine .quiet hc (.refl _) ?_ (forall_works_prepared fun entry he site hs => ?_)
    · rw [works_dispatch]
      simp [List.flatMap_map, owned, ← List.map_eq_flatMap]
    · obtain rfl := List.mem_singleton.mp hs
      exact List.mem_map_of_mem he
  | @prepareDeclare frame group rest prepared found type hl =>
    refine .declare hc (.refl _) (by simp [owned]) (by simp [Path.key]) (by simp [owned])
      (forall_works_work fun site hs => ?_)
    rcases List.mem_append.mp hs with hs | hs
    · exact .inl ⟨List.mem_append_left _ hs, prepared_ne hc hs⟩
    · rw [announced_of_lookup (by decide) hl] at hs
      obtain rfl := List.mem_singleton.mp hs
      exact .inr ⟨rfl, rfl⟩
  | @prepare frame group rest prepared found type hl =>
    refine .goOn hc (alike_fieldDeeds frame group found type) (by simp [owned, Reference.site])
      fun site hs => ?_
    rw [sites_declare, List.map_append] at hs
    rwa [sites, announced_of_lookup (by decide) hl]
  | @fieldDeclare frame group found type hl =>
    refine .declare hc (.refl _) (List.mem_singleton.mpr rfl) (by simp [Path.key]) (by simp [owned])
      (forall_works_work fun site hs => .inr ?_)
    rw [sites, announced_of_lookup (by decide) hl] at hs
    obtain rfl := List.mem_singleton.mp hs
    exact ⟨rfl, rfl⟩
  | @field frame group found type hl =>
    refine .goOn hc (alike_fieldDeeds frame group found type) (by simp [owned, Reference.site])
      fun site hs => ?_
    rwa [sites, announced_of_lookup (by decide) hl]
  | prepareAdmit | fieldAdmit | content =>
    exact .goOn hc (.refl _) (List.Sublist.refl _) (List.Subset.refl _)
  | enter => exact .goOn hc (.refl _) (List.Sublist.refl _) (List.nil_subset _)
  | ready | queue | start | wake | settle | sleep | report =>
    refine .goOn hc (State.alike_of_quiet (fun deed hd => ?_) state) (List.Sublist.refl _)
      (List.Subset.refl _)
    rw [List.mem_singleton.mp hd]
    trivial
  | skip hr => exact .quiet hc (.refl _) (List.nil_sublist _) (by simp)
  | null hr | refuse hr => exact succession_null hc rfl (List.mem_singleton_self _) _
  | @complete site content => exact succession_shaped hc rfl rfl _

/-- A field that is left out only gives up its place. -/
theorem Prunes.succession (h : Prunes env state piece deeds outcome)
    (hc : Coherent env state.tree [piece]) :
    Succession env state.tree piece.owned (state.performAll deeds).tree (works outcome.strands) := by
  cases h with
  | @prepare frame group rest prepared hp hd =>
    refine .goOn hc (.refl _) (by simp [owned]) fun site hs => ?_
    rw [sites_declare] at hs
    exact List.mem_append_left _ hs
  | field hp hd => exact .quiet hc (.refl _) (List.nil_sublist _) (by simp)

theorem succession_of_account
    (h : Step env state piece deeds outcome ∨ Prunes env state piece deeds outcome)
    (hc : Coherent env state.tree [piece]) :
    Succession env state.tree piece.owned (state.performAll deeds).tree (works outcome.strands) :=
  h.elim (fun hstep => hstep.succession hc) fun hprunes => hprunes.succession hc

end Work

namespace Machine

def Coherent (env : Environment) (machine : Machine) : Prop :=
  GraphQL.Coherent env machine.state.tree (Strand.works machine.task.strands)

theorem coherent_start (env : Environment) (operation : Operation) (rootType : TypeDef)
    (root : Json) : (Machine.start operation rootType root).Coherent env where
  regular := by
    refine ⟨.pending, rfl, fun path hn => ?_⟩
    cases path with
    | nil => cases hn
    | cons segment rest => cases segment <;> cases hn
  isOpen path hp := by
    obtain rfl : path = [] := List.mem_singleton.mp hp
    exact .inl rfl
  apart := List.pairwise_singleton _ _
  declared piece hm site hs := by
    obtain rfl := List.mem_singleton.mp hm
    cases hs

variable {env : Environment}

theorem Coherent.advance {machine next : Machine} (h : machine.Coherent env) {address : Address}
    (move : machine.perform? env (.advance address) = some next) : next.Coherent env := by
  obtain ⟨left, piece, right, deeds, outcome, hs, -, htrim, hstate, hk⟩ := advance_account move
  unfold Machine.Coherent at h ⊢
  rw [hs, Strand.works_append, Strand.works_ok] at h
  have hnext := h.replace (Work.succession_of_account hk h.single)
  rw [hstate]
  refine hnext.sublist ?_
  simpa using htrim.works_sublist

/-- The work of a machine and its tree fit together at every moment of a run. -/
theorem Run.coherent {steps : Nat} {first last : Machine} (h : Run env steps first last)
    (hc : first.Coherent env) : last.Coherent env := by
  refine h.preserves (fun move hm => hm.advance move) (fun move hm => ?_) hc
  obtain ⟨wake, -, rfl⟩ := pass_eq move
  exact hm

end Machine

end GraphQL
