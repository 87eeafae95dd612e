import GraphQL.Proofs.Discipline
import Mathlib.Data.List.Permutation

/-!
# The chronicle of a run

The work of a machine and its history fit together: the places of fields that are still to be
declared are fresh, those of fields that have been declared and of values under way have begun, and
no resolver has been called for a field that is still to be called. A step of work changes this only
for its own places, so the history of every run, at every moment, is disciplined.
-/

namespace GraphQL

/-- How many of the fields that are still to be prepared have been declared. -/
def Phase.declared : Phase → Nat
  | declare => 0
  | _ => 1

namespace Work

/-- The places that have been declared: of values under way, and of a field between its declaration
and its call. -/
def begun : Work → List Path
  | select frame _ _ => [frame.path]
  | prepare frame phase groups prepared => (prepared.map fun entry => entry.1.path) ++
      (groups.map fun group => frame.path.key group.key).take phase.declared
  | field frame phase group => [frame.path.key group.key].take phase.declared
  | settle site _ _ => [site.path]
  | await site _ _ _ _ => [site.path]
  | resume site _ _ => [site.path]
  | complete site _ => [site.path]

/-- The places of the fields that are still to be declared. -/
def fresh : Work → List Path
  | prepare frame phase groups _ =>
    (groups.map fun group => frame.path.key group.key).drop phase.declared
  | field frame phase group => [frame.path.key group.key].drop phase.declared
  | _ => []

/-- The places of the fields whose resolvers are still to be called. -/
def uncalled : Work → List Path
  | prepare frame _ groups _ => groups.map fun group => frame.path.key group.key
  | field frame _ group => [frame.path.key group.key]
  | _ => []

theorem owned_eq (piece : Work) : piece.owned = piece.begun ++ piece.fresh := by
  cases piece <;> simp [owned, begun, fresh]

theorem begun_subset_owned (piece : Work) : piece.begun ⊆ piece.owned := by
  rw [owned_eq]
  exact List.subset_append_left _ _

theorem fresh_subset_owned (piece : Work) : piece.fresh ⊆ piece.owned := by
  rw [owned_eq]
  exact List.subset_append_right _ _

theorem uncalled_subset_owned (piece : Work) : piece.uncalled ⊆ piece.owned := by
  cases piece with
  | prepare => exact List.subset_append_right _ _
  | field => exact List.Subset.refl _
  | _ => exact List.nil_subset _

end Work

/-- The history of a state is disciplined and fits the work that is left to do. -/
structure Chronicled (state : State) (pieces : List Work) : Prop where
  recorded : state.Recorded
  begun : ∀ piece ∈ pieces, ∀ path ∈ piece.begun, Begun state.events path
  fresh : ∀ piece ∈ pieces, ∀ path ∈ piece.fresh, Fresh state.events path
  uncalled : ∀ piece ∈ pieces, ∀ path ∈ piece.uncalled, Uncalled state.events path

/-- Work that owned these places leaves the pieces to do; what happens meanwhile concerns only the
places. -/
structure Continues (state : State) (own : List Path) (next : State) (pieces : List Work) : Prop where
  chronicled : Chronicled next pieces
  adds : state.Extends next own

namespace Chronicled

variable {state next : State} {piece : Work} {left right pieces : List Work}

theorem sublist (h : Chronicled state pieces) {part : List Work} (hs : part.Sublist pieces) :
    Chronicled state part where
  recorded := h.recorded
  begun piece hm := h.begun piece (hs.mem hm)
  fresh piece hm := h.fresh piece (hs.mem hm)
  uncalled piece hm := h.uncalled piece (hs.mem hm)

theorem single (h : Chronicled state (left ++ piece :: right)) : Chronicled state [piece] :=
  h.sublist (by simp)

/-- The places of other pieces of work stay as they are. -/
theorem replace (h : Chronicled state (left ++ piece :: right))
    (hc : Coherent env state.tree (left ++ piece :: right))
    (hs : Continues state piece.owned next pieces) :
    Chronicled next (left ++ pieces ++ right) := by
  have hold : ∀ other ∈ left ++ right, other ∈ left ++ piece :: right := by
    intro other ho
    rcases List.mem_append.mp ho with ho | ho
    · exact List.mem_append_left _ ho
    · exact List.mem_append_right _ (List.mem_cons_of_mem _ ho)
  have hsplit : ∀ other ∈ left ++ pieces ++ right, other ∈ pieces ∨ other ∈ left ++ right := by
    intro other ho
    rcases List.mem_append.mp ho with ho | ho
    · exact (List.mem_append.mp ho).symm.imp id (List.mem_append_left _)
    · exact .inr (List.mem_append_right _ ho)
  refine ⟨hs.chronicled.recorded, fun other ho path hp => ?_, fun other ho path hp => ?_,
    fun other ho path hp => ?_⟩
  · rcases hsplit other ho with ho | ho
    · exact hs.chronicled.begun other ho path hp
    · exact hs.adds.begun (hc.others ho (other.begun_subset_owned hp))
        (h.begun other (hold other ho) path hp)
  · rcases hsplit other ho with ho | ho
    · exact hs.chronicled.fresh other ho path hp
    · exact hs.adds.fresh (hc.others ho (other.fresh_subset_owned hp))
        (h.fresh other (hold other ho) path hp)
  · rcases hsplit other ho with ho | ho
    · exact hs.chronicled.uncalled other ho path hp
    · exact hs.adds.uncalled (hc.others ho (other.uncalled_subset_owned hp))
        (h.uncalled other (hold other ho) path hp)

end Chronicled

namespace Work

open Strand

variable {env : Environment} {state : State} {piece : Work} {deeds : List Deed} {outcome : Task}

/-- Work that neither records a type nor writes nor calls. -/
theorem continues_idle (deeds : List Deed) (hk : Chronicled state [piece])
    (hd : ∀ deed ∈ deeds, deed.IsIdle) {pieces : List Work}
    (hb : ∀ left ∈ pieces, left.begun ⊆ piece.begun)
    (hf : ∀ left ∈ pieces, left.fresh ⊆ piece.fresh)
    (hu : ∀ left ∈ pieces, left.uncalled ⊆ piece.uncalled) :
    Continues state piece.owned (state.performAll deeds) pieces := by
  obtain ⟨hrecorded, hextends⟩ := hk.recorded.idle deeds hd
  have hpiece := List.mem_singleton_self piece
  refine ⟨⟨hrecorded, fun left hl path hp => ?_, fun left hl path hp => ?_,
    fun left hl path hp => ?_⟩, hextends.within fun _ hp => nomatch hp⟩
  · exact hextends.begun (fun _ ht => nomatch ht) (hk.begun piece hpiece path (hb left hl hp))
  · exact hextends.fresh (fun _ ht => nomatch ht) (hk.fresh piece hpiece path (hf left hl hp))
  · exact hextends.uncalled (fun _ ht => nomatch ht)
      (hk.uncalled piece hpiece path (hu left hl hp))

/-- Work that writes at its only place. What it leaves has the places inside of the entry. -/
theorem continues_write (hc : Coherent env state.tree [piece]) (hk : Chronicled state [piece])
    {path : Path} (ho : piece.owned = [path]) (hb : path ∈ piece.begun) (entry : Entry)
    (he : entry.Proper) (propagating : Bool) (hne : propagating = true → path ≠ [])
    (pieces : List Work) (hbegun : ∀ left ∈ pieces, left.begun = [])
    (hfresh : ∀ left ∈ pieces, ∀ place ∈ left.fresh, propagating = false ∧
      ∃ segment, entry.Opens segment ∧ place = path ++ [segment])
    (huncalled : ∀ left ∈ pieces, left.uncalled ⊆ left.fresh) :
    Continues state piece.owned (state.perform (.write path entry propagating)) pieces := by
  have hopen : state.tree.data.Open path := hc.isOpen path (by simp [ho])
  have hpath := hk.begun piece (List.mem_singleton_self piece) path hb
  have hchild : ∀ left ∈ pieces, ∀ place ∈ left.fresh,
      Fresh (state.perform (.write path entry propagating)).events place := by
    intro left hl place hp
    obtain ⟨rfl, segment, hs, rfl⟩ := hfresh left hl place hp
    rw [State.events_write]
    exact hpath.child entry segment hs _
  refine ⟨⟨hk.recorded.write hpath hc.regular hopen entry he propagating hne,
    fun left hl place hp => ?_, hchild,
    fun left hl place hp => (hchild left hl place (huncalled left hl hp)).uncalled⟩, ?_⟩
  · rw [hbegun left hl] at hp
    cases hp
  · rw [ho]
    exact State.extends_write state path entry propagating

/-- A site that ends with a null. -/
theorem continues_null (hc : Coherent env state.tree [piece]) (hk : Chronicled state [piece])
    {site : Site} (ho : piece.owned = [site.path]) (hb : site.path ∈ piece.begun)
    (hs : site ∈ piece.sites env) (errors : List ResponseError) :
    Continues state piece.owned
      (state.performAll [.report errors, .write site.path .null site.type.isNonNull]) [] := by
  -- the report changes neither the data nor the history
  have hreported : Chronicled (state.perform (.report errors)) [piece] :=
    ⟨hk.recorded.report errors, hk.begun, hk.fresh, hk.uncalled⟩
  have hc' : Coherent env (state.perform (.report errors)).tree [piece] :=
    ⟨⟨hc.regular.distinct, hc.regular.root, hc.regular.nulls⟩, hc.isOpen, hc.apart, hc.declared⟩
  have h := continues_write hc' hreported ho hb .null trivial site.type.isNonNull
    (fun _ => path_ne_nil hc hs) [] (fun _ hl => nomatch hl) (fun _ hl => nomatch hl)
    fun _ hl => nomatch hl
  exact ⟨h.chronicled, h.adds⟩

/-- A list is written, and the types of its elements are recorded. -/
theorem continues_list (hc : Coherent env state.tree [piece]) (hk : Chronicled state [piece])
    {site : Site} (ho : piece.owned = [site.path]) (hb : site.path ∈ piece.begun)
    (itemType : TypeRef) (items : List Resolution) :
    Continues state piece.owned (state.performAll ((Shaped.list itemType items).deeds env site))
      (Shaped.settling site itemType items) := by
  have hopen : state.tree.data.Open site.path := hc.isOpen site.path (by simp [ho])
  have hsite := hk.begun piece (List.mem_singleton_self piece) site.path hb
  have hwritten := hk.recorded.write hsite hc.regular hopen (.list items.length) trivial false
    (fun h => nomatch h)
  obtain ⟨hrecorded, hbegun, hextends⟩ := hwritten.declareAll
    (Reference.elements site itemType items.length) (fun element he => by
      obtain ⟨place, hp, rfl⟩ := Reference.mem_elements he
      rw [State.events_write]
      exact hsite.child (.list items.length) (.index place) hp _) (by
      rw [Reference.elements, List.map_map, List.pairwise_map]
      exact List.nodup_range.imp fun hne => Path.apart_of_ne fun he => hne (PathSegment.index.inj he))
  refine ⟨⟨hrecorded, fun left hl path hp => ?_, fun left hl path hp => ?_,
    fun left hl path hp => ?_⟩, ?_⟩
  · obtain ⟨entry, hentry, rfl⟩ := List.mem_map.mp hl
    obtain rfl := List.mem_singleton.mp hp
    exact hbegun entry.1 (List.of_mem_zip hentry).1
  · obtain ⟨entry, hentry, rfl⟩ := List.mem_map.mp hl
    cases hp
  · obtain ⟨entry, hentry, rfl⟩ := List.mem_map.mp hl
    cases hp
  · rw [ho]
    refine (State.extends_write state _ _ _).trans (hextends.within fun path hp => ?_)
    obtain ⟨element, he, rfl⟩ := List.mem_map.mp hp
    obtain ⟨place, -, rfl⟩ := Reference.mem_elements he
    exact ⟨site.path, List.mem_singleton_self _, List.prefix_append _ _⟩

/-- Something is done at one place of a piece of work, as when a field is declared or called; the
others stay as they are. -/
theorem continues_place (hc : Coherent env state.tree [piece]) (hk : Chronicled state [piece])
    (before : List Path) {after : List Path} {path : Path}
    (ho : piece.owned = before ++ path :: after)
    (hbefore : before ⊆ piece.begun) (hafter : after ⊆ piece.fresh) {next : State}
    (hr : next.Recorded) (he : state.Extends next [path]) (hn : Begun next.events path)
    {left : Work} (hb : left.begun = before ++ [path]) (hf : left.fresh = after)
    (hu : ∀ place ∈ left.uncalled, place ∈ left.fresh ∨ Uncalled next.events place) :
    Continues state piece.owned next [left] := by
  have ha := hc.apart
  rw [List.flatMap_singleton, ho, List.pairwise_append, List.pairwise_cons] at ha
  obtain ⟨-, ⟨hlast, -⟩, hfirst⟩ := ha
  have hpiece := List.mem_singleton_self piece
  have hfresh : ∀ place ∈ left.fresh, Fresh next.events place := by
    intro place hp
    rw [hf] at hp
    refine he.fresh (fun top ht => ?_) (hk.fresh piece hpiece place (hafter hp))
    exact List.mem_singleton.mp ht ▸ hlast place hp
  refine ⟨⟨hr, fun other hl place hp => ?_, fun other hl place hp => ?_,
    fun other hl place hp => ?_⟩, he.within fun place hp => ?_⟩
  · rw [List.mem_singleton.mp hl, hb] at hp
    rcases List.mem_append.mp hp with hp | hp
    · refine he.begun (fun top ht => ?_) (hk.begun piece hpiece place (hbefore hp))
      exact List.mem_singleton.mp ht ▸ (hfirst place hp path List.mem_cons_self).symm
    · exact List.mem_singleton.mp hp ▸ hn
  · exact hfresh place (List.mem_singleton.mp hl ▸ hp)
  · exact (hu place (List.mem_singleton.mp hl ▸ hp)).elim (fun hp => (hfresh place hp).uncalled) id
  · exact ⟨place, ho ▸ List.mem_append_right _ (List.mem_singleton.mp hp ▸ List.mem_cons_self),
      List.prefix_refl _⟩

/-- The keys of an object are written, and nothing has happened at its fields. -/
theorem continues_gather {frame : ObjectFrame} {selections : List Selection} {serial : Bool}
    {groups : List FieldGroup} (hc : Coherent env state.tree [select frame selections serial])
    (hk : Chronicled state [select frame selections serial])
    (hg : Gathering.collect env.schema env.document env.context frame.type selections =
      .ok groups) :
    Continues state [frame.path]
      (state.performAll [.write frame.path (.object (groups.map FieldGroup.key)) false])
      (works (if serial then Task.inOrder ((groups.map (.field frame .declare)).map .work)
        else .work (.prepare frame .declare groups [])).strands) := by
  have hleft : ∀ left ∈ works (if serial then
        Task.inOrder ((groups.map (.field frame .declare)).map .work)
      else .work (.prepare frame .declare groups [])).strands,
      left.begun = [] ∧ left.uncalled ⊆ left.fresh ∧
        ∀ place ∈ left.fresh, ∃ group ∈ groups, place = frame.path ++ [.key group.key] := by
    refine forall_works_gathered ⟨rfl, List.Subset.refl _, fun place hp => ?_⟩
      fun group hm => ⟨rfl, List.Subset.refl _, fun place hp => ⟨group, hm, List.mem_singleton.mp hp⟩⟩
    obtain ⟨group, hm, rfl⟩ := List.mem_map.mp hp
    exact ⟨group, hm, rfl⟩
  refine continues_write hc hk rfl (List.mem_singleton_self _)
    (.object (groups.map FieldGroup.key)) (Gathering.nodup_collect hg) false (fun h => nomatch h)
    _ (fun left hl => (hleft left hl).1) (fun left hl place hp => ⟨rfl, ?_⟩)
    fun left hl => (hleft left hl).2.1
  obtain ⟨group, hm, rfl⟩ := (hleft left hl).2.2 place hp
  exact ⟨.key group.key, List.mem_map_of_mem hm, rfl⟩

theorem isIdle_asked (site : Site) (type : ObjectDef) (value : Json) :
    ∀ deed ∈ Shaped.asked env site type value, deed.IsIdle := by
  intro deed hd
  rw [Shaped.asked] at hd
  split at hd
  · obtain rfl := List.mem_singleton.mp hd
    rintro path (hp | hp | hp) <;> cases hp
  · cases hd

theorem continues_shaped {site : Site} {content : Content}
    (hc : Coherent env state.tree [complete site content])
    (hk : Chronicled state [complete site content]) (shaped : Shaped) :
    Continues state [site.path] (state.performAll (shaped.deeds env site))
      (works (shaped.outcome env site).strands) := by
  have hb := List.mem_singleton_self site.path
  cases shaped with
  | null errors =>
    exact continues_null hc hk rfl hb (List.mem_singleton_self _) errors
  | leaf output =>
    exact continues_write hc hk rfl hb (.leaf output) trivial false (fun h => by cases h) []
      (fun _ hl => by cases hl) (fun _ hl => by cases hl) fun _ hl => by cases hl
  | list itemType items =>
    rw [Shaped.outcome, works_dispatch]
    exact continues_list hc hk rfl hb itemType items
  | object type value =>
    exact continues_idle _ hk (isIdle_asked site type value) (by simp [begun, Shaped.outcome])
      (by simp [fresh, Shaped.outcome]) (by simp [uncalled, Shaped.outcome])
  | fault raised =>
    exact continues_idle [] hk (fun _ hd => by cases hd) (by simp [Shaped.outcome])
      (by simp [Shaped.outcome]) (by simp [Shaped.outcome])

theorem Step.continues (h : Step env state piece deeds outcome)
    (hc : Coherent env state.tree [piece])
    (hk : Chronicled state [piece]) :
    Continues state piece.owned (state.performAll deeds) (works outcome.strands) := by
  cases h with
  | gatherFault | prepareFault | fieldFault | skip =>
    exact continues_idle [] hk (fun _ hd => nomatch hd) (by simp) (by simp) (by simp)
  | gather hg => exact continues_gather hc hk hg
  | @prepared frame phase prepared =>
    refine continues_idle [] hk (fun _ hd => nomatch hd)
      (forall_works_prepared fun entry he path hp => ?_)
      (forall_works_prepared fun _ _ => List.nil_subset _)
      (forall_works_prepared fun _ _ => List.nil_subset _)
    obtain rfl := List.mem_singleton.mp hp
    exact List.mem_append_left _ (List.mem_map_of_mem he)
  | @prepareDeclare frame group rest prepared found type hl =>
    have hfresh := hk.fresh _ (List.mem_singleton_self _) _ List.mem_cons_self
    have hbegun := State.Recorded.begun_declare hfresh type
    refine continues_place hc hk _ rfl (List.subset_append_left _ _) (List.subset_cons_self _ _)
      (hk.recorded.declare hfresh type) (State.extends_declare state _ type) hbegun.1 rfl rfl
      fun place hp => ?_
    exact (List.mem_cons.mp hp).elim (fun hp => .inr (hp ▸ hbegun.2)) .inl
  | @fieldDeclare frame group found type hl =>
    have hfresh := hk.fresh _ (List.mem_singleton_self _) _ List.mem_cons_self
    have hbegun := State.Recorded.begun_declare hfresh type
    refine continues_place hc hk [] rfl (List.nil_subset _) (List.nil_subset _)
      (hk.recorded.declare hfresh type) (State.extends_declare state _ type) hbegun.1 rfl rfl
      fun place hp => .inr ?_
    exact List.mem_singleton.mp hp ▸ hbegun.2
  | prepareAdmit | fieldAdmit =>
    exact continues_idle [] hk (fun _ hd => nomatch hd) (by simp [begun, Phase.declared])
      (by simp [fresh, Phase.declared]) (by simp [uncalled])
  | prepare hl =>
    have hbegun := hk.begun _ (List.mem_singleton_self _) _
      (List.mem_append_right _ List.mem_cons_self)
    have huncalled := hk.uncalled _ (List.mem_singleton_self _) _ List.mem_cons_self
    obtain ⟨hrecorded, hbegun, hextends⟩ := hk.recorded.fieldDeeds hbegun huncalled _ _
    refine continues_place hc hk _ rfl (List.subset_append_left _ _) (List.Subset.refl _)
      hrecorded hextends hbegun ?_ rfl fun place => .inl
    simp [begun, Phase.declared, Reference.site]
  | field hl =>
    have hbegun := hk.begun _ (List.mem_singleton_self _) _ List.mem_cons_self
    have huncalled := hk.uncalled _ (List.mem_singleton_self _) _ List.mem_cons_self
    obtain ⟨hrecorded, hbegun, hextends⟩ := hk.recorded.fieldDeeds hbegun huncalled _ _
    exact continues_place hc hk [] rfl (List.nil_subset _) (List.nil_subset _)
      hrecorded hextends hbegun rfl rfl fun place => .inl
  | ready | queue | start | wake | settle | sleep | report =>
    refine continues_idle _ hk (fun deed hd => ?_) (by simp [begun]) (by simp [fresh])
      (by simp [uncalled])
    obtain rfl := List.mem_singleton.mp hd
    first | trivial | exact fun path hp => by rcases hp with hp | hp | hp <;> cases hp
  | content | enter =>
    exact continues_idle [] hk (fun _ hd => nomatch hd) (by simp [begun]) (by simp [fresh])
      (by simp [uncalled])
  | null hr | refuse hr =>
    exact continues_null hc hk rfl (List.mem_singleton_self _) (List.mem_singleton_self _) _
  | complete => exact continues_shaped hc hk _

/-- The place of a field that is left out is given up. -/
theorem Prunes.continues (h : Prunes env state piece deeds outcome)
    (hk : Chronicled state [piece]) :
    Continues state piece.owned (state.performAll deeds) (works outcome.strands) := by
  cases h with
  | prepare =>
    exact continues_idle [] hk (fun _ hd => nomatch hd) (by simp [begun, Phase.declared])
      (by simp [fresh, Phase.declared]) (by simp [uncalled])
  | field =>
    exact continues_idle [] hk (fun _ hd => nomatch hd) (by simp) (by simp) (by simp)

end Work

namespace Machine

variable {env : Environment}

def Chronicled (machine : Machine) : Prop :=
  GraphQL.Chronicled machine.state (Strand.works machine.task.strands)

theorem chronicled_start (operation : Operation) (rootType : TypeDef) (root : Json) :
    (Machine.start operation rootType root).Chronicled where
  recorded :=
    { disciplined := .nil
      alike := .refl _
      nulls := fun path hn => by
        cases path with
        | nil => cases hn
        | cons segment rest => cases segment <;> cases hn }
  begun piece hm path hp := by
    obtain rfl := List.mem_singleton.mp hm
    obtain rfl := List.mem_singleton.mp hp
    exact ⟨fun _ he => (nomatch he), fun _ he => (nomatch he),
      fun place hp hn => absurd (List.prefix_nil.mp hp) hn⟩
  fresh piece hm path hp := by
    obtain rfl := List.mem_singleton.mp hm
    cases hp
  uncalled piece hm path hp := by
    obtain rfl := List.mem_singleton.mp hm
    cases hp

theorem Chronicled.advance {machine next : Machine} (h : machine.Chronicled)
    (hc : machine.Coherent env) {address : Address}
    (move : machine.perform? env (.advance address) = some next) : next.Chronicled := by
  obtain ⟨left, piece, right, deeds, outcome, hs, -, htrim, hstate, hk⟩ := advance_account move
  unfold Machine.Chronicled at h ⊢
  unfold Machine.Coherent at hc
  rw [hs, Strand.works_append, Strand.works_ok] at h hc
  have hcont : Continues machine.state piece.owned (machine.state.performAll deeds)
      (Strand.works outcome.strands) := by
    rcases hk with hk | hk
    · exact hk.continues hc.single h.single
    · exact hk.continues h.single
  have hnext := h.replace hc hcont
  rw [hstate]
  refine hnext.sublist ?_
  simpa using htrim.works_sublist

/-- The work of a machine and its history fit together at every moment of a run. -/
theorem Run.chronicled {steps : Nat} {first last : Machine} (h : Run env steps first last)
    (hc : first.Coherent env) (hk : first.Chronicled) : last.Chronicled := by
  refine (h.preserves (P := fun machine => machine.Coherent env ∧ machine.Chronicled)
    (fun move hm => ⟨hm.1.advance move, hm.2.advance hm.1 move⟩) (fun move hm => ?_) ⟨hc, hk⟩).2
  obtain ⟨wake, -, rfl⟩ := pass_eq move
  have hr := hm.2.recorded
  exact ⟨hm.1, ⟨hr.disciplined, hr.alike, hr.nulls⟩, hm.2.begun, hm.2.fresh, hm.2.uncalled⟩

end Machine

namespace Executor

variable {executor : Executor} {schema : Schema} {request : Request}

/-- The state that a run has reached is recorded by its events. -/
theorem recorded_of_run {env : Environment} {machine last : Machine} {steps : Nat}
    (hs : executor.start schema request = .ok (env, machine))
    (hr : Machine.Run env steps machine last) : last.state.Recorded := by
  have hk : machine.Chronicled := by
    obtain ⟨operation, rootType, -, rfl⟩ := start_ok hs
    exact Machine.chronicled_start operation rootType request.root
  exact (hr.chronicled (coherent_start hs) hk).recorded

/-- **No update is lost.** At every moment of every run, whatever the settings are: no path is
declared, written or called twice; what is declared or written was reserved by its container and,
before it is written, its type and those of its containers were recorded; a plain write is dropped
only inside of a container that a propagating write has collapsed; and the tree is what the events
have made of it. -/
theorem history_disciplined (executor : Executor) (schema : Schema) (request : Request)
    {env : Environment} {machine last : Machine} {steps : Nat}
    (hs : executor.start schema request = .ok (env, machine))
    (hr : Machine.Run env steps machine last) :
    Disciplined last.state.events ∧ (replayed last.state.events).Alike last.state.tree := by
  have hrecorded := recorded_of_run hs hr
  exact ⟨hrecorded.disciplined, hrecorded.alike⟩

end Executor

namespace Sample

/-- Users that may have a title besides their name. -/
def titled : Schema where
  queryType := some "Query"
  types := [.object { name := "Query", fields := [{ name := "user", type := .late "User" }] },
    .object { name := "User", fields :=
      [{ name := "name", type := .required "String" }, { name := "title", type := .late "String" }] },
    .scalar { name := "String" }]

/-- The name of a user is not known, but the title is. -/
def titles : Registry where
  resolvers := ("User.title", { resolve := fun _ _ _ _ => .ready (.value (.str "Countess")) }) ::
    (registry (.ready unknown)).resolvers

def polite : Request where
  document :=
    { operations := [{ selections :=
        [.field { name := "user", selections :=
          [.field { name := "name" }, .field { name := "title" }] }] }] }

/-- The title is written after the user has collapsed. -/
theorem execute_polite :
    (({ registry := titles } : Executor).execute titled polite 30).map (fun result =>
      result.map fun execution => execution.history.filterMap fun (_, event) => event.dropped?) =
      some (.ok [[.key "user", .key "title"]]) := by
  cbv

end Sample

namespace Executor

/-- The theorem at a user whose name is not known: the write of the title is dropped, as the user
has collapsed. -/
theorem polite_disciplined :
    ∃ env machine last steps,
      Executor.start { registry := Sample.titles } Sample.titled Sample.polite =
        .ok (env, machine) ∧ Machine.Run env steps machine last ∧
      last.state.events.filterMap Event.dropped? = [[.key "user", .key "title"]] ∧
      Disciplined last.state.events := by
  obtain ⟨execution, hreaches, hdropped⟩ := Reaches.of_execute Sample.execute_polite
  cases hreaches with
  | @ended env machine last steps _ hs hr he =>
    refine ⟨env, machine, last, steps, hs, hr, ?_, (history_disciplined _ _ _ hs hr).1⟩
    obtain ⟨-, rfl⟩ := Machine.execution_of_result he
    rw [State.events, List.filterMap_map]
    exact hdropped

end Executor

end GraphQL
