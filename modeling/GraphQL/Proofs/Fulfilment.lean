import GraphQL.Proofs.Expectations

/-!
# Fulfilment

A step of work passes on what is expected: if the work that it leaves comes to what is expected of
it, so does the work that took the step, with the values that have settled in the step.
-/

namespace GraphQL

open Evaluation Reference Strand Settlement

def Deed.settled : Deed → List Settlement
  | note event => event.settlements
  | _ => []

def State.settlements (state : State) : List Settlement :=
  state.history.reverse.flatMap fun entry => entry.2.settlements

theorem State.settlements_perform (state : State) (deed : Deed) :
    (state.perform deed).settlements = state.settlements ++ deed.settled := by
  cases deed <;>
    simp [settlements, perform, report, declare, write, State.note, Deed.settled, Event.settlements]

theorem State.settlements_performAll (state : State) (deeds : List Deed) :
    (state.performAll deeds).settlements = state.settlements ++ deeds.flatMap Deed.settled := by
  induction deeds generalizing state with
  | nil => simp
  | cons deed rest ih =>
    rw [performAll_cons, ih, settlements_perform, List.flatMap_cons, List.append_assoc]

namespace Work

variable {env : Environment} {state : State} {piece : Work} {deeds : List Deed} {outcome : Task}
  {settlements : List Settlement}

theorem settled_fieldDeeds (frame : ObjectFrame) (group : FieldGroup) (found : FieldLookup)
    (type : TypeRef) : (fieldDeeds env frame group found type).flatMap Deed.settled = [] :=
  List.flatMap_eq_nil_iff.mpr (forall_fieldDeeds rfl (fun _ _ => rfl) rfl)

theorem settled_shaped (site : Site) (shaped : Shaped) :
    (shaped.deeds env site).flatMap Deed.settled = [] := by
  cases shaped with
  | list itemType items => simp [Shaped.deeds, Deed.settled, List.flatMap_map]
  | object type value =>
    rw [Shaped.deeds, Shaped.asked]
    cases env.registry.authorizer? type.name <;> rfl
  | _ => rfl

/-- What settles from a step on, inside of its places, settles inside of those that it leaves; and
no element of a list is skipped. -/
structure Foreseen (settlements : List Settlement) (piece : Work) (outcome : Task) : Prop where
  inside : ∀ settlement ∈ settlements, ∀ path ∈ piece.owned, path <+: settlement.path →
    ∃ top ∈ (works outcome.strands).flatMap owned, top <+: settlement.path
  elements : ∀ settlement ∈ settlements, settlement.isSkip = true → ∀ path place,
    settlement.path ≠ Path.index path place

/-- A place that is closed is not skipped any more. -/
theorem Foreseen.not_skipped (h : Foreseen settlements piece outcome) {path : Path}
    (hp : path ∈ piece.owned)
    (hbelow : ∀ top ∈ (works outcome.strands).flatMap owned, ¬ top <+: path) :
    skips settlements path = false := by
  by_contra hs
  obtain ⟨settlement, hm, -, rfl⟩ := skips_eq_true.mp (by simpa using hs)
  obtain ⟨top, ht, htop⟩ := h.inside settlement hm settlement.path hp (List.prefix_refl _)
  exact hbelow top ht htop

/-- What a step leaves comes to these results; they amount to what is expected of the work that took
it, with what settles in the step. -/
def Redeems (env : Environment) (state : State) (piece : Work) (deeds : List Deed)
    (settlements : List Settlement) (new : Results) : Prop :=
  ∃ own, Meets (piece.expectations env (deeds.flatMap Deed.settled ++ settlements)) own ∧
    Joins state.tree (state.performAll deeds).tree own new

theorem Meets.single {expected : Expectation} {path : Path} {result : Bool → Completed}
    (hp : path = expected.1) (h : expected.2 result) : Meets [expected] [(path, result)] :=
  .cons ⟨hp, h⟩ .nil

theorem Meets.split {first second : List Expectation} {results : Results}
    (h : Meets (first ++ second) results) :
    ∃ before after, results = before ++ after ∧ Meets first before ∧ Meets second after := by
  induction first generalizing results with
  | nil => exact ⟨[], results, rfl, .nil, h⟩
  | cons expected rest ih =>
    cases h with
    | cons hr hrest =>
      obtain ⟨before, after, rfl, hbefore, hafter⟩ := ih hrest
      exact ⟨_ :: before, after, rfl, .cons hr hbefore, hafter⟩

/-- What a value settled to that is not to be skipped may come on top. -/
theorem fits_settled {settlement : Settlement} {required : Bool} {type : TypeRef}
    {selections : List Selection} {path : Path} {completed : Completed}
    (hs : settlement.isSkip = false)
    (h : completed.Fits env settlements required type selections path) :
    completed.Fits env (settlement :: settlements) required type selections path :=
  h.mono (fun _ hm => List.mem_cons_of_mem _ hm) fun other _ => by simp [skips_cons, hs]

/-- Only a value that is skipped is routed to nothing. -/
theorem isSkip_iff_route {site : Site} {authorizing : Bool} {value : FieldValue} :
    Settlement.isSkip ⟨site.path, authorizing, value⟩ = true ↔ site.route value = .skipped := by
  cases value with
  | skip => exact ⟨fun _ => rfl, fun _ => rfl⟩
  | value shown => cases shown <;> simp [Settlement.isSkip, Site.route]
  | errors errors => cases errors <;> simp [Settlement.isSkip, Site.route]
  | list items => simp [Settlement.isSkip, Site.route]
  | error error => simp [Settlement.isSkip, Site.route]

theorem isSkip_of_route {site : Site} {authorizing : Bool} {value : FieldValue}
    (hr : site.route value ≠ .skipped) :
    Settlement.isSkip ⟨site.path, authorizing, value⟩ = false :=
  Bool.eq_false_iff.mpr (mt isSkip_iff_route.mp hr)

/-- The value that is routed on is the one that was settled to. -/
theorem shown_of_route {site : Site} {value : FieldValue} {shown : Json}
    (hr : site.route value = .content (.value shown)) : value.shown? = some shown := by
  unfold Site.route at hr
  split at hr <;> simp_all [FieldValue.shown?]

theorem isNonNull_of_aim {site : Site} {purpose : Purpose}
    (h : (aim site purpose).isNonNull = true) : site.type.isNonNull = true := by
  cases purpose with
  | complete => exact h
  | enter type => cases h

theorem Meets.only_constant {path : Path} {holds : Completed → Prop} {results : Results}
    (h : Meets [constant path holds] results) :
    ∃ completed, results = [(path, fun _ => completed)] ∧ holds completed := by
  cases h with
  | @cons _ entry _ _ hr hrest =>
    obtain ⟨_, result⟩ := entry
    obtain ⟨rfl, completed, rfl, hholds⟩ := hr
    cases hrest
    exact ⟨completed, rfl, hholds⟩

theorem redeems_same {next : List Expectation} {new : Results}
    (ha : state.tree.Alike (state.performAll deeds).tree) (hm : Meets next new)
    (he : next = piece.expectations env (deeds.flatMap Deed.settled ++ settlements)) :
    Redeems env state piece deeds settlements new :=
  ⟨new, he ▸ hm, .of_alike ha new⟩

theorem fits_null {site : Site} (purpose : Purpose) {value : FieldValue}
    (hr : site.route value ≠ .skipped) (hs : skips settlements site.path = false) :
    (Completed.null site.type.isNonNull).Fits env
      (⟨site.path, purpose.isAuthorizing, value⟩ :: settlements) site.type.isNonNull
      (aim site purpose) site.field.selections site.path :=
  fits_settled (isSkip_of_route hr) (.null hs isNonNull_of_aim)

theorem meets_settling {site : Site} {itemType : TypeRef} {items : List Resolution} {new : Results}
    (hm : Meets ((Shaped.settling site itemType items).flatMap (expectations env settlements))
      new) :
    ∃ completed, new = .fixed ((List.range items.length).map site.path.index) completed ∧
      List.Forall₂ (fun element completed => completed.Fits env settlements itemType.isNonNull
        itemType site.field.selections element) ((List.range items.length).map site.path.index)
          completed := by
  have hflat : (Shaped.settling site itemType items).flatMap (expectations env settlements) =
      (((elements site itemType items.length).zip items).map Prod.fst).map fun element =>
        siteExpectation env settlements element .complete := by
    simp [Shaped.settling, List.flatMap_map, expectations, ← List.map_eq_flatMap]
  rw [hflat, settling_fst, elements, List.map_map] at hm
  have hconstants : Meets ((List.range items.length).map fun place =>
      constant (site.path.index place) fun completed => completed.Fits env settlements
        itemType.isNonNull itemType site.field.selections (site.path.index place)) new := hm
  obtain ⟨completed, rfl, hfits⟩ := hconstants.constants
  exact ⟨completed, rfl, List.forall₂_map_left_iff.mpr hfits⟩

/-- An object whose type suits its value comes to what is expected at its site. -/
theorem fits_shown {site : Site} {type : ObjectDef} {shown : Json} {content : Content}
    {value : FieldValue} {completed : Completed}
    (hsuits : (Shaped.object type shown).Suits env content site.type)
    (hr : site.route value = .content content)
    (hfits : completed.Fits env settlements site.type.isNonNull (.resolved (.object type))
      site.field.selections site.path) :
    completed.Fits env (⟨site.path, false, value⟩ :: settlements) site.type.isNonNull site.type
      site.field.selections site.path := by
  have hshown : site.route value = .content (.value shown) := hsuits.1 ▸ hr
  have hskip : Settlement.isSkip ⟨site.path, false, value⟩ = false := isSkip_of_route (by simp [hr])
  cases fits_settled hskip hfits with
  | absent hs => exact .absent hs
  | propagating hs hr => exact .propagating hs hr
  | @value completed hs hv hconforms =>
    refine .value hs hv ?_
    by_cases hnull : completed = .null
    · exact hnull ▸ .null (hv hnull)
    · exact hsuits.2 _ _ _ _ hnull ⟨_, List.mem_cons_self, rfl, rfl, shown_of_route hshown⟩
        hconforms

/-- The completion of a value comes to what is expected at its site. -/
theorem redeems_shaped {site : Site} {content : Content} {shaped : Shaped} {new : Results}
    (hc : Coherent env state.tree [complete site content])
    (hsuits : shaped.Suits env content site.type) (hsound : Sound (shaped.outcome env site).strands)
    (hf : Foreseen settlements (complete site content) (shaped.outcome env site))
    (hm : Meets ((works (shaped.outcome env site).strands).flatMap (expectations env settlements))
      new) :
    Redeems env state (complete site content) (shaped.deeds env site) settlements new := by
  have hsite : site ∈ (complete site content).sites env := List.mem_singleton.mpr rfl
  -- the place is closed by every shape but an object
  have hclosed : (∀ top ∈ (works (shaped.outcome env site).strands).flatMap owned,
      ¬ top <+: site.path) → skips settlements site.path = false :=
    hf.not_skipped (List.mem_singleton.mpr rfl)
  have hroute : ∀ {value : FieldValue}, site.route value = .content content →
      Settlement.isSkip ⟨site.path, false, value⟩ = false := fun hr =>
    isSkip_of_route (by simp [hr])
  unfold Redeems
  rw [settled_shaped, List.nil_append]
  cases shaped with
  | null errors =>
    obtain rfl := List.forall₂_nil_left_iff.mp hm
    refine ⟨_, .single rfl fun value hr => ⟨_, rfl, ?_⟩, joins_null hc hsite errors⟩
    exact fits_settled (hroute hr) (.null (hclosed (by simp [Shaped.outcome])) id)
  | leaf output =>
    obtain rfl := List.forall₂_nil_left_iff.mp hm
    refine ⟨_, .single rfl fun value hr => ⟨_, rfl, ?_⟩, joins_leaf hc hsite output⟩
    exact fits_settled (hroute hr) (.value (hclosed (by simp [Shaped.outcome]))
      (fun he => absurd he hsuits.1) (hsuits.2 _ _ _))
  | list itemType items =>
    rw [Shaped.outcome, works_dispatch] at hm
    obtain ⟨completed, rfl, hfits⟩ := meets_settling hm
    have hlength : completed.length = items.length := by simpa using hfits.length_eq.symm
    refine ⟨_, .single rfl fun value hr => ⟨_, rfl, ?_⟩, joins_list hc hsite itemType items hlength⟩
    refine fits_settled (hroute hr) (.list (hclosed fun top ht hp => ?_) id (hsuits _ _ _)
      (fun place => ?_) hfits)
    · rw [Shaped.outcome, works_dispatch, owned_settling] at ht
      obtain ⟨place, -, rfl⟩ := List.mem_map.mp ht
      exact site.path.not_child_prefix (.index place) hp
    · by_contra hskip
      obtain ⟨settlement, hmem, hs, hpath⟩ := skips_eq_true.mp (by simpa using hskip)
      exact hf.elements settlement hmem hs _ _ hpath
  | object type shown =>
    rw [Shaped.outcome, works_work, List.flatMap_singleton] at hm
    obtain ⟨completed, rfl, hfits⟩ := hm.only_constant
    exact ⟨_, .single rfl fun value hr => ⟨completed, rfl, fits_shown hsuits hr hfits⟩,
      .of_alike (alike_asked site type shown) _⟩
  | fault raised => exact absurd List.mem_cons_self (hsound raised)

theorem meets_groups {frame : ObjectFrame} {groups : List FieldGroup} {serial : Bool}
    {new : Results}
    (hm : Meets ((works (if serial then Task.inOrder ((groups.map (field frame .declare)).map .work)
      else Task.work (.prepare frame .declare groups [])).strands).flatMap
        (expectations env settlements)) new) :
    ∃ completed, new = .fixed ((groups.map FieldGroup.key).map frame.path.key) completed ∧
      List.Forall₂ (Completed.Fits.Field env settlements frame) groups completed := by
  have hfields : Meets (groups.map (fieldExpectation env settlements frame .declare)) new := by
    cases serial with
    | true =>
      rw [if_pos rfl, works_inOrder] at hm
      simpa [List.flatMap_map, expectations, ← List.map_eq_flatMap] using hm
    | false => simpa [expectations, groupExpectations_declare] using hm
  obtain ⟨completed, rfl, hholds⟩ := Meets.constants hfields
  exact ⟨completed, by rw [List.map_map]; rfl, hholds⟩

theorem meets_prepare {frame : ObjectFrame} {phase : Phase} {groups : List FieldGroup}
    {prepared : List (Site × Resolution)} {results : Results}
    (hm : Meets ((prepare frame phase groups prepared).expectations env settlements) results) :
    ∃ completed, results = .fixed (prepare frame phase groups prepared).owned completed ∧
      completed.length = (prepare frame phase groups prepared).owned.length := by
  obtain ⟨before, after, rfl, hbefore, hafter⟩ := Meets.split hm
  obtain ⟨first, rfl, hfirst⟩ := Meets.constants hbefore
  have hlength : first.length = prepared.length := hfirst.length_eq.symm
  obtain ⟨rest, rfl, hrest⟩ : ∃ rest, after = .fixed (groups.map fun group =>
      frame.path.key group.key) rest ∧ rest.length = groups.length := by
    cases groups with
    | nil => exact ⟨[], List.forall₂_nil_left_iff.mp hafter, rfl⟩
    | cons group others =>
      cases hafter with
      | @cons _ entry _ _ hfirst hothers =>
        obtain ⟨_, _⟩ := entry
        obtain ⟨rfl, completed, rfl, -⟩ := hfirst
        obtain ⟨more, rfl, hmore⟩ := Meets.constants hothers
        exact ⟨completed :: more, rfl, by simp [hmore.length_eq]⟩
  refine ⟨first ++ rest, ?_, by simp [owned, hlength, hrest]⟩
  rw [owned, Results.fixed_append (by simpa using hlength)]

/-- What is expected at the site of a field is what is expected of the field, whichever step of its
preparation is next. -/
theorem field_of_site {frame : ObjectFrame} {group : FieldGroup} {found : FieldLookup}
    {type : TypeRef} (phase : Phase) (hl : lookup env frame group = .ok (found, type)) :
    (siteExpectation env settlements (site env frame group found type) .complete).Implies
      (fieldExpectation env settlements frame phase group) := by
  refine ⟨rfl, ?_⟩
  rintro result ⟨completed, rfl, hfits⟩
  refine ⟨completed, rfl, ?_⟩
  cases phase with
  | declare => exact ⟨found, type, hl, hfits⟩
  | check | call =>
    intro found' type' hl'
    obtain ⟨rfl, rfl⟩ := Prod.mk.inj (Except.ok.inj (hl.symm.trans hl'))
    exact hfits

/-- A field that is found fits its type. -/
theorem field_of_lookup {frame : ObjectFrame} {group : FieldGroup} {found : FieldLookup}
    {type : TypeRef} (hl : lookup env frame group = .ok (found, type)) :
    (fieldExpectation env settlements frame .check group).Implies
      (fieldExpectation env settlements frame .declare group) := by
  refine ⟨rfl, ?_⟩
  rintro result ⟨completed, rfl, hfits⟩
  exact ⟨completed, rfl, found, type, hl, hfits found type hl⟩

theorem implies_same (expected : List Expectation) :
    List.Forall₂ Expectation.Implies expected expected :=
  List.forall₂_same.mpr fun own _ => .refl own

theorem redeems_gather {frame : ObjectFrame} {selections : List Selection} {serial : Bool}
    {groups : List FieldGroup} {new : Results}
    (hc : Coherent env state.tree [select frame selections serial])
    (hg : Gathering.collect env.schema env.document env.context frame.type selections = .ok groups)
    (hf : Foreseen settlements (select frame selections serial)
      (if serial then Task.inOrder ((groups.map (field frame .declare)).map .work)
        else .work (.prepare frame .declare groups [])))
    (hm : Meets ((works (if serial then Task.inOrder ((groups.map (field frame .declare)).map .work)
      else Task.work (.prepare frame .declare groups [])).strands).flatMap
        (expectations env settlements)) new) :
    Redeems env state (select frame selections serial)
      [.write frame.path (.object (groups.map FieldGroup.key)) false] settlements new := by
  obtain ⟨completed, rfl, hfields⟩ := meets_groups hm
  have hskip : skips settlements frame.path = false := by
    refine hf.not_skipped (List.mem_singleton.mpr rfl) fun top ht hp => ?_
    rw [← flatMap_expectations_paths settlements, ← hm.paths, Results.paths_fixed
      (by simpa using hfields.length_eq.symm)] at ht
    obtain ⟨key, -, rfl⟩ := List.mem_map.mp ht
    exact frame.path.not_child_prefix (.key key) hp
  refine ⟨_, .single rfl fun objectType ht required => ?_,
    joins_object hc hg hfields.length_eq.symm⟩
  exact .object ht hg hskip hfields required

/-- A value that ends with a null comes to what is expected, as it is not skipped. -/
theorem redeems_null {site : Site} {purpose : Purpose} {value : FieldValue} {new : Results}
    (hc : Coherent env state.tree [resume site purpose value])
    (hr : site.route value ≠ .skipped)
    (hf : Foreseen settlements (resume site purpose value) .done) (hm : Meets [] new)
    (errors : List ResponseError) :
    Redeems env state (resume site purpose value)
      [.report errors, .write site.path .null site.type.isNonNull] settlements new := by
  obtain rfl := List.forall₂_nil_left_iff.mp hm
  refine ⟨_, .single rfl ⟨_, rfl, fits_null purpose hr ?_⟩,
    joins_null hc (List.mem_singleton.mpr rfl) errors⟩
  exact hf.not_skipped (List.mem_singleton.mpr rfl) (by simp)

/-- An object that is entered comes to what its selections come to. -/
theorem redeems_enter {site : Site} {type : ObjectDef} {value : FieldValue} {exposed : Json}
    {new : Results} (hc : Coherent env state.tree [resume site (.enter type) value])
    (hr : site.route value = .content (.value exposed))
    (hm : Meets ((select { path := site.path, type := .object type, value := exposed }
      site.field.selections false).expectations env settlements) new) :
    Redeems env state (resume site (.enter type) value) [] settlements new := by
  cases hm with
  | @cons _ entry _ _ hmeets hrest =>
    obtain ⟨_, result⟩ := entry
    obtain ⟨rfl, hfits⟩ := hmeets
    cases hrest
    refine ⟨[(site.path, fun _ => result site.type.isNonNull)], .single rfl ⟨_, rfl, ?_⟩,
      .of_eq (.refl _) ?_⟩
    · have hskip : Settlement.isSkip ⟨site.path, (Purpose.enter type).isAuthorizing, value⟩ =
          false := isSkip_of_route (by simp [hr])
      exact fits_settled hskip (hfits type rfl _)
    · rw [isRequired_site hc (List.mem_singleton.mpr rfl)]

/-- Where the work that a step leaves comes to what is expected of it, so does the work that took
the step. -/
theorem Step.redeems (h : Step env state piece deeds outcome) (hc : Coherent env state.tree [piece])
    (hsound : Sound outcome.strands) (hf : Foreseen settlements piece outcome) {new : Results}
    (hm : Meets ((works outcome.strands).flatMap (expectations env settlements)) new) :
    Redeems env state piece deeds settlements new := by
  cases h with
  | gatherFault | prepareFault | fieldFault => exact absurd List.mem_cons_self (hsound _)
  | gather hg => exact redeems_gather hc hg hf hm
  | @prepared frame phase prepared =>
    refine redeems_same (.refl _) hm ?_
    rw [works_dispatch]
    simp [List.flatMap_map, expectations, groupExpectations, ← List.map_eq_flatMap]
  | @prepareDeclare frame group rest prepared found type hl =>
    rw [works_work, List.flatMap_singleton] at hm
    refine ⟨new, hm.imp (List.rel_append (implies_same _)
      (.cons (field_of_lookup hl) (implies_same _))), ?_⟩
    obtain ⟨completed, rfl, hlength⟩ := meets_prepare hm
    exact joins_declare hc type (by simp [owned]) hlength
  | prepareAdmit | fieldAdmit =>
    rw [works_work, List.flatMap_singleton] at hm
    exact redeems_same (.refl _) hm rfl
  | @prepare frame group rest prepared found type hl =>
    rw [works_work, List.flatMap_singleton] at hm
    refine ⟨new, ?_, .of_alike (alike_fieldDeeds frame group found type) new⟩
    rw [settled_fieldDeeds]
    refine hm.imp ?_
    simp only [expectations, List.map_append, List.append_assoc, groupExpectations_declare]
    exact List.rel_append (implies_same _) (.cons (field_of_site .call hl) (implies_same _))
  | @fieldDeclare frame group found type hl =>
    obtain ⟨completed, rfl, hfits⟩ := hm.only_constant
    have hlength : [completed].length = (Work.field frame .declare group).owned.length := rfl
    exact ⟨_, .single rfl ((field_of_lookup hl).result _ ⟨completed, rfl, hfits⟩),
      joins_declare hc type (List.mem_singleton.mpr rfl) hlength⟩
  | @field frame group found type hl =>
    obtain ⟨completed, rfl, hfits⟩ := hm.only_constant
    refine ⟨_, .single rfl ((field_of_site .call hl).result _ ⟨completed, rfl, ?_⟩),
      .of_alike (alike_fieldDeeds frame group found type) _⟩
    rw [settled_fieldDeeds]
    exact hfits
  | ready | settle | queue | start | wake | sleep | report =>
    exact redeems_same ⟨rfl, rfl⟩ hm rfl
  | @skip site purpose value hr =>
    obtain rfl := List.forall₂_nil_left_iff.mp hm
    refine ⟨_, .single rfl ⟨_, rfl, .absent ?_⟩, .of_absent (.refl _)⟩
    simp [skips_cons, isSkip_iff_route.mpr hr]
  | null hr => exact redeems_null hc (by simp [hr]) hf hm _
  | refuse hr => exact redeems_null hc (by simp [hr]) hf hm _
  | @content site value content hr =>
    rw [works_work, List.flatMap_singleton] at hm
    cases hm with
    | @cons _ entry _ _ hmeets hrest =>
      cases hrest
      exact ⟨[entry], .single hmeets.1 (hmeets.2 value hr), .of_alike (.refl _) _⟩
  | enter hr =>
    rw [works_work, List.flatMap_singleton] at hm
    exact redeems_enter hc hr hm
  | @complete site content => exact redeems_shaped hc (Shaped.suits env site content _) hsound hf hm

/-- A field that is left out comes to a null, which nobody sees, unless it was skipped. -/
theorem Prunes.redeems (h : Prunes env state piece deeds outcome)
    (hc : Coherent env state.tree [piece])
    {new : Results}
    (hm : Meets ((works outcome.strands).flatMap (expectations env settlements)) new) :
    Redeems env state piece deeds settlements new := by
  have hfield : ∀ (frame : ObjectFrame) (group : FieldGroup), ∃ completed,
      (fieldExpectation env settlements frame .check group).2 fun _ => completed := by
    intro frame group
    cases hs : skips settlements (frame.path.key group.key) with
    | true => exact ⟨_, _, rfl, fun found type _ => .absent hs⟩
    | false =>
      cases hl : lookup env frame group with
      | error raised => exact ⟨.absent, _, rfl, fun found type h => nomatch hl.symm.trans h⟩
      | ok entry =>
        refine ⟨.null entry.2.isNonNull, _, rfl, fun found type h => ?_⟩
        obtain rfl := Except.ok.inj (hl.symm.trans h)
        exact .null hs id
  cases h with
  | @prepare frame group rest prepared hp hcollapsed =>
    have hdead := dead_of_collapsed hc (List.mem_append_right _ List.mem_cons_self) hcollapsed
    obtain ⟨completed, hcompleted⟩ := hfield frame group
    rw [works_work, List.flatMap_singleton] at hm
    obtain ⟨before, after, rfl, hbefore, hafter⟩ := Meets.split hm
    rw [groupExpectations_declare] at hafter
    refine ⟨before ++ (frame.path.key group.key, fun _ => completed) :: after, ?_,
      .of_dead hc.regular hdead (.refl _) before after _⟩
    exact List.rel_append hbefore (.cons ⟨rfl, hcompleted⟩ hafter)
  | @field frame group hp hcollapsed =>
    have hdead := dead_of_collapsed hc List.mem_cons_self hcollapsed
    obtain ⟨completed, hcompleted⟩ := hfield frame group
    obtain rfl := List.forall₂_nil_left_iff.mp hm
    exact ⟨_, .single rfl hcompleted, .of_dead hc.regular hdead (.refl _) [] [] fun _ => completed⟩

/-- What settles in a step does so at a place of the work that takes it. -/
theorem Step.settled_owned (h : Step env state piece deeds outcome) {settlement : Settlement}
    (hm : settlement ∈ deeds.flatMap Deed.settled) : settlement.path ∈ piece.owned := by
  cases h with
  | prepare | field =>
    rw [settled_fieldDeeds] at hm
    cases hm
  | complete =>
    rw [settled_shaped] at hm
    cases hm
  | ready | settle =>
    obtain rfl := List.mem_singleton.mp hm
    exact List.mem_singleton.mpr rfl
  | _ => cases hm

theorem Prunes.settled (h : Prunes env state piece deeds outcome) :
    deeds.flatMap Deed.settled = [] := by
  cases h <;> rfl

/-- Where everything settles inside of the places that are left, what settles inside of the places
of a piece of work does so inside of those that its step leaves. -/
theorem Foreseen.of_inside {tree : ResultTree} {left right : List Work}
    (hc : Coherent env tree (left ++ piece :: right))
    (hinside : ∀ settlement ∈ settlements,
      ∃ top ∈ (left ++ works outcome.strands ++ right).flatMap owned, top <+: settlement.path)
    (helements : ∀ settlement ∈ settlements, settlement.isSkip = true → ∀ path place,
      settlement.path ≠ Path.index path place) : Foreseen settlements piece outcome := by
  refine ⟨fun settlement hm path hp hbelow => ?_, helements⟩
  obtain ⟨top, ht, htop⟩ := hinside settlement hm
  obtain ⟨owner, howner, ht⟩ := List.mem_flatMap.mp ht
  by_cases hother : owner ∈ left ++ right
  · -- the places of other work lie apart, so nothing is inside of both
    have hapart := hc.others hother ht path hp
    rcases List.prefix_or_prefix_of_prefix hbelow htop with h | h
    · exact absurd h hapart.1
    · exact absurd h hapart.2
  · have hmem : owner ∈ works outcome.strands := by
      simp only [List.mem_append, not_or] at howner hother
      tauto
    exact ⟨top, List.mem_flatMap.mpr ⟨owner, hmem, ht⟩, htop⟩

/-- What settles at the places of a piece of work does not matter to the other pieces. -/
theorem Meets.others {others : List Work} {own : List Path} {now : List Settlement}
    {results : Results} (hnow : ∀ settlement ∈ now, settlement.path ∈ own)
    (hapart : ∀ other ∈ others, ∀ path ∈ other.owned, ∀ top ∈ own, top.Apart path)
    (hm : Meets (others.flatMap (expectations env settlements)) results) :
    Meets (others.flatMap (expectations env (now ++ settlements))) results := by
  induction others generalizing results with
  | nil => exact hm
  | cons other rest ih =>
    obtain ⟨first, more, rfl, hfirst, hmore⟩ := Meets.split hm
    refine List.rel_append (hfirst.imp (expectations_mono ?_ ?_))
      (ih (fun other ho => hapart other (List.mem_cons_of_mem _ ho)) hmore)
    · exact fun settlement hs => List.mem_append_right _ hs
    · intro path hp inside hinside
      have hnone : skips now inside = false := by
        by_contra hskip
        obtain ⟨settlement, hs, -, rfl⟩ := skips_eq_true.mp (by simpa using hskip)
        exact (hapart other List.mem_cons_self path hp _ (hnow settlement hs)).2 hinside
      simp only [skips] at hnone ⊢
      rw [List.any_append, hnone, Bool.false_or]

/-- Results of all work that is left, given those of the work that a step leaves in the middle. -/
theorem Redeems.around {left middle right : List Work} {results : Results}
    (hc : Coherent env state.tree (left ++ piece :: right))
    (hnow : ∀ settlement ∈ deeds.flatMap Deed.settled, settlement.path ∈ piece.owned)
    (hm : Meets ((left ++ middle ++ right).flatMap (expectations env settlements)) results)
    (hr : ∀ new, Meets (middle.flatMap (expectations env settlements)) new →
      Redeems env state piece deeds settlements new) :
    ∃ own, Meets ((left ++ piece :: right).flatMap
        (expectations env (deeds.flatMap Deed.settled ++ settlements))) own ∧
      state.tree.read own = (state.performAll deeds).tree.read results := by
  rw [List.flatMap_append, List.flatMap_append] at hm
  obtain ⟨_, after, rfl, hmiddle, hafter⟩ := Meets.split hm
  obtain ⟨before, new, rfl, hbefore, hnew⟩ := Meets.split hmiddle
  obtain ⟨own, hown, hjoins⟩ := hr new hnew
  refine ⟨before ++ own ++ after, ?_, (hjoins before after fun path hp top htop => ?_).symm⟩
  · rw [List.flatMap_append, List.flatMap_cons, ← List.append_assoc]
    refine List.rel_append (List.rel_append (hbefore.others hnow ?_) hown) (hafter.others hnow ?_)
    · exact fun other ho path hp => hc.others (List.mem_append_left _ ho) hp
    · exact fun other ho path hp => hc.others (List.mem_append_right _ ho) hp
  · rw [hown.paths, expectations_paths] at htop
    rw [hbefore.paths, hafter.paths, flatMap_expectations_paths, flatMap_expectations_paths,
      ← List.flatMap_append] at hp
    obtain ⟨other, hother, hpath⟩ := List.mem_flatMap.mp hp
    exact hc.others hother hpath top htop

/-- What is inside of the places that are left after a step was inside of those before it. -/
theorem inside_around {left middle right : List Work}
    (hbelow : ∀ path ∈ middle.flatMap owned, ∃ top ∈ piece.owned, top <+: path) {path : Path}
    (hp : path ∈ (left ++ middle ++ right).flatMap owned) :
    ∃ top ∈ (left ++ piece :: right).flatMap owned, top <+: path := by
  rw [List.flatMap_append, List.flatMap_append, List.mem_append, List.mem_append] at hp
  rw [List.flatMap_append, List.flatMap_cons]
  rcases hp with (hp | hp) | hp
  · exact ⟨path, by simp [hp], List.prefix_refl path⟩
  · obtain ⟨top, ht, htop⟩ := hbelow path hp
    exact ⟨top, by simp [ht], htop⟩
  · exact ⟨path, by simp [hp], List.prefix_refl path⟩

end Work

end GraphQL
