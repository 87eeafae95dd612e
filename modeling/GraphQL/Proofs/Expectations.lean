import GraphQL.Proofs.Conformance
import GraphQL.Proofs.Pruning
import Mathlib.Data.List.Nodup

/-!
# Expectations

What the places that work is to fill should come to, by their declared types and by what settles
from here on. An object fits its type if its fields fit theirs, and a list if its elements do; what
settles elsewhere does not matter.
-/

namespace GraphQL

open Evaluation Reference Strand Settlement

/-- What a place comes to fits its type: it is absent where it was skipped, and otherwise a value of
the type or a null that propagates because the place is required not to be null. -/
inductive Completed.Fits (env : Environment) (settlements : List Settlement) (required : Bool)
    (type : TypeRef) (selections : List Selection) (path : Path) : Completed → Prop where
  | absent (hs : skips settlements path = true) :
      Fits env settlements required type selections path .absent
  | propagating (hs : skips settlements path = false) (hr : required = true) :
      Fits env settlements required type selections path .propagating
  | value {value : Json} (hs : skips settlements path = false)
      (hv : value = .null → required = false)
      (hc : Conforms env settlements type selections path value) :
      Fits env settlements required type selections path (.value value)

namespace Completed.Fits

variable {env : Environment} {settlements others : List Settlement} {required : Bool}
  {type : TypeRef} {selections : List Selection} {path : Path} {completed : Completed}

theorem mono (h : completed.Fits env settlements required type selections path)
    (hsub : ∀ settlement ∈ settlements, settlement ∈ others)
    (hskips : ∀ other, path <+: other → skips others other = skips settlements other) :
    completed.Fits env others required type selections path := by
  have hpath := hskips path (List.prefix_refl path)
  cases h with
  | absent hs => exact .absent (hpath.trans hs)
  | propagating hs hr => exact .propagating (hpath.trans hs) hr
  | value hs hv hc =>
    exact .value (hpath.trans hs) hv (hc.mono hsub fun other hp _ => hskips other hp)

theorem conforms_data (h : completed.Fits env settlements false type selections path)
    (hn : type.isNonNull = false) :
    Conforms env settlements type selections path completed.data := by
  cases h with
  | absent hs => exact .null hn
  | propagating hs hr => cases hr
  | value hs hv hc => exact hc

/-- A null fits where it is admitted, and propagates where it is not. -/
theorem null (hs : skips settlements path = false) (ht : type.isNonNull = true → required = true) :
    (Completed.null required).Fits env settlements required type selections path := by
  cases required with
  | true => exact .propagating hs rfl
  | false => exact .value hs (fun _ => rfl) (.null (by simpa using ht))

end Completed.Fits

/-- A declared type whose outermost name was looked up beforehand. -/
theorem Conforms.of_resolve {env : Environment} {settlements : List Settlement}
    {declared type : TypeRef} {selections : List Selection} {path : Path} {value : Json}
    (hr : env.schema.resolve env.context declared = .ok type)
    (h : Conforms env settlements type selections path value) :
    Conforms env settlements declared selections path value := by
  cases declared with
  | late name =>
    simp only [Schema.resolve] at hr
    split at hr
    · next definition hd =>
      obtain rfl := Except.ok.inj hr
      exact .late hd h
    · cases hr
  | resolved | list | nonNull =>
    obtain rfl := Except.ok.inj hr
    exact h

namespace Completed.Fits

variable {env : Environment} {settlements : List Settlement} {required : Bool}
  {selections : List Selection} {path : Path} {completed : List Completed}

def Field (env : Environment) (settlements : List Settlement) (frame : ObjectFrame)
    (group : FieldGroup) (completed : Completed) : Prop :=
  ∃ found type, lookup env frame group = .ok (found, type) ∧
    completed.Fits env settlements type.isNonNull type group.selections
      (frame.path.key group.key)

theorem members {frame : ObjectFrame} {groups : List FieldGroup}
    (h : List.Forall₂ (Field env settlements frame) groups completed)
    {members : List (String × Json)}
    (hm : Completed.members? ((groups.map FieldGroup.key).zip completed) = some members) :
    members.map Prod.fst = ((groups.map FieldGroup.key).filter fun key =>
        !skips settlements (frame.path.key key)) ∧
      ∀ member ∈ members, ∃ group ∈ groups, group.key = member.1 ∧ ∃ found type,
        lookup env frame group = .ok (found, type) ∧
        Conforms env settlements type group.selections (frame.path.key group.key) member.2 := by
  induction h generalizing members with
  | nil =>
    obtain rfl := Option.some.inj hm
    exact ⟨rfl, fun _ hm => nomatch hm⟩
  | @cons group completed groups others hgroup _ ih =>
    obtain ⟨found, type, hl, hfits⟩ := hgroup
    rw [List.map_cons, List.zip_cons_cons] at hm
    cases hfits with
    | absent hs =>
      obtain ⟨hkeys, heach⟩ := ih hm
      refine ⟨by simp [hkeys, hs], fun member hmember => ?_⟩
      obtain ⟨other, hother, hrest⟩ := heach member hmember
      exact ⟨other, List.mem_cons_of_mem _ hother, hrest⟩
    | propagating => cases hm
    | @value value hs hv hc =>
      obtain ⟨rest, hrest, rfl⟩ := Option.map_eq_some_iff.mp hm
      obtain ⟨hkeys, heach⟩ := ih hrest
      refine ⟨by simp [hkeys, hs], fun member hmember => ?_⟩
      rcases List.mem_cons.mp hmember with rfl | hmember
      · exact ⟨group, List.mem_cons_self, rfl, found, type, hl, hc⟩
      · obtain ⟨other, hother, hrest⟩ := heach member hmember
        exact ⟨other, List.mem_cons_of_mem _ hother, hrest⟩

/-- An object fits its type if its fields fit theirs. -/
theorem object {frame : ObjectFrame} {objectType : ObjectDef} {groups : List FieldGroup}
    (ht : frame.type = .object objectType)
    (hg : Gathering.collect env.schema env.document env.context frame.type selections =
      .ok groups)
    (hs : skips settlements frame.path = false)
    (h : List.Forall₂ (Field env settlements frame) groups completed) (required : Bool) :
    (Completed.object required ((groups.map FieldGroup.key).zip completed)).Fits env settlements
      required (.resolved (.object objectType)) selections frame.path := by
  unfold Completed.object
  split
  · next members hm =>
    obtain ⟨hkeys, heach⟩ := Fits.members h hm
    refine .value hs (fun he => nomatch he) (.object (ht ▸ hg) hkeys ?_ ?_)
    · have hknown : List.Forall₂ (fun group completed => (∃ found,
          env.schema.field? (.object objectType) group.node.name = some found) ∧
            Field env settlements frame group completed) groups completed := by
        refine h.imp fun group completed hfield => ⟨?_, hfield⟩
        obtain ⟨found, type, hl, -⟩ := hfield
        exact ⟨found, ht ▸ (lookup_ok hl).1⟩
      exact ((List.forall₂_and_left groups completed).mp hknown).1
    · intro group hgroup found hf value hmember
      obtain ⟨other, hother, hkey, found', type, hl, hc⟩ := heach _ hmember
      obtain rfl : other = group :=
        List.inj_on_of_nodup_map (Gathering.nodup_collect hg) hother hgroup hkey
      obtain ⟨hfound, hresolve⟩ := lookup_ok hl
      obtain rfl : found' = found := Option.some.inj (hfound.symm.trans (ht ▸ hf))
      exact hc.of_resolve hresolve
  · exact .null hs (fun he => nomatch he)

theorem items {type : TypeRef} {sites : List Path}
    (h : List.Forall₂ (fun site completed => completed.Fits env settlements type.isNonNull type
      selections site) sites completed)
    (hskip : ∀ site ∈ sites, skips settlements site = false) {items : List Json}
    (hm : Completed.items? completed = some items) :
    List.Forall₂ (Conforms env settlements type selections) sites items := by
  induction h generalizing items with
  | nil =>
    obtain rfl := Option.some.inj hm
    exact .nil
  | @cons site completed sites others hfits _ ih =>
    cases hfits with
    | absent hs =>
      rw [hskip site List.mem_cons_self] at hs
      cases hs
    | propagating => cases hm
    | value hs hv hc =>
      obtain ⟨rest, hrest, rfl⟩ := Option.map_eq_some_iff.mp hm
      exact .cons hc (ih (fun site hsite => hskip site (List.mem_cons_of_mem _ hsite)) hrest)

/-- A list fits its type if its elements, none of which was skipped, fit the type of elements. -/
theorem list {type itemType : TypeRef} (hs : skips settlements path = false)
    (ht : type.isNonNull = true → required = true)
    (hc : ∀ items, (∀ place value, items[place]? = some value →
      Conforms env settlements itemType selections (path.index place) value) →
        Conforms env settlements type selections path (.arr items)) {length : Nat}
    (hskip : ∀ place, skips settlements (path.index place) = false)
    (h : List.Forall₂ (fun element completed => completed.Fits env settlements itemType.isNonNull
      itemType selections element) ((List.range length).map path.index) completed) :
    (Completed.list required completed).Fits env settlements required type selections path := by
  unfold Completed.list
  split
  · next items hm =>
    have hitems := Fits.items h (fun element he => by
      obtain ⟨place, -, rfl⟩ := List.mem_map.mp he
      exact hskip place) hm
    refine .value hs (fun he => nomatch he) (hc items fun place value hvalue => ?_)
    obtain ⟨hplace, rfl⟩ := List.getElem?_eq_some_iff.mp hvalue
    have hlength := hitems.length_eq
    have hget := hitems.get (i := place) (by omega) hplace
    simpa using hget
  · exact .null hs ht

end Completed.Fits

/-- What is expected of the result of a place. -/
abbrev Expectation := Path × ((Bool → Completed) → Prop)

/-- What is as the one expectation says is as the other says. -/
structure Expectation.Implies (own other : Expectation) : Prop where
  path : other.1 = own.1
  result : ∀ result, own.2 result → other.2 result

theorem Expectation.Implies.refl (own : Expectation) : own.Implies own := ⟨rfl, fun _ => id⟩

namespace Work

variable (env : Environment)

/-- The declared type of the values that a purpose is after. -/
def aim (site : Site) : Purpose → TypeRef
  | .complete => site.type
  | .enter type => .resolved (.object type)

/-- A result that is the same whether or not the place is required, and of which this holds. -/
def constant (path : Path) (holds : Completed → Prop) : Expectation :=
  (path, fun result => ∃ completed, (result = fun _ => completed) ∧ holds completed)

def siteExpectation (settlements : List Settlement) (site : Site) (purpose : Purpose) :
    Expectation :=
  constant site.path fun completed => completed.Fits env settlements site.type.isNonNull
    (aim site purpose) site.field.selections site.path

/-- What a field comes to fits the type that is found for it. That one is found follows where the
type is still to be declared. -/
def fieldFits (settlements : List Settlement) (frame : ObjectFrame) (group : FieldGroup) :
    Phase → Completed → Prop
  | .declare, completed => Completed.Fits.Field env settlements frame group completed
  | _, completed => ∀ found type, lookup env frame group = .ok (found, type) →
      completed.Fits env settlements type.isNonNull type group.selections
        (frame.path.key group.key)

def fieldExpectation (settlements : List Settlement) (frame : ObjectFrame) (phase : Phase)
    (group : FieldGroup) : Expectation :=
  constant (frame.path.key group.key) (fieldFits env settlements frame group phase)

def groupExpectations (settlements : List Settlement) (frame : ObjectFrame) (phase : Phase) :
    List FieldGroup → List Expectation
  | [] => []
  | group :: rest => fieldExpectation env settlements frame phase group ::
      rest.map (fieldExpectation env settlements frame .declare)

/-- What is expected of the results of work, given what settles from here on. A value that has
settled already counts as if it did so now. -/
def expectations (settlements : List Settlement) : Work → List Expectation
  | select frame selections _ =>
    [(frame.path, fun result => ∀ objectType, frame.type = .object objectType → ∀ required,
      (result required).Fits env settlements required (.resolved (.object objectType)) selections
        frame.path)]
  | prepare frame phase groups prepared =>
    prepared.map (fun entry => siteExpectation env settlements entry.1 .complete) ++
      groupExpectations env settlements frame phase groups
  | field frame phase group => [fieldExpectation env settlements frame phase group]
  | settle site purpose _ => [siteExpectation env settlements site purpose]
  | await site purpose _ _ _ => [siteExpectation env settlements site purpose]
  | resume site purpose value =>
    [siteExpectation env (⟨site.path, purpose.isAuthorizing, value⟩ :: settlements) site purpose]
  | complete site content =>
    [(site.path, fun result => ∀ value, site.route value = .content content →
      (siteExpectation env (⟨site.path, false, value⟩ :: settlements) site .complete).2 result)]

/-- Results are as expected, place by place. -/
def Meets (expectations : List Expectation) (results : Results) : Prop :=
  List.Forall₂ (fun expected own => own.1 = expected.1 ∧ expected.2 own.2) expectations results

variable {env}

theorem groupExpectations_declare (settlements : List Settlement) (frame : ObjectFrame)
    (groups : List FieldGroup) : groupExpectations env settlements frame .declare groups =
      groups.map (fieldExpectation env settlements frame .declare) := by
  cases groups <;> rfl

theorem expectations_paths (settlements : List Settlement) (piece : Work) :
    (piece.expectations env settlements).map Prod.fst = piece.owned := by
  cases piece with
  | prepare frame phase groups prepared =>
    cases groups <;>
      simp [expectations, groupExpectations, owned, siteExpectation, fieldExpectation, constant,
        Function.comp_def]
  | _ => rfl

theorem flatMap_expectations_paths (settlements : List Settlement) (pieces : List Work) :
    (pieces.flatMap (expectations env settlements)).map Prod.fst = pieces.flatMap owned := by
  rw [List.map_flatMap]
  exact congrArg (List.flatMap · pieces) (funext (expectations_paths settlements))

theorem Meets.paths {expectations : List Expectation} {results : Results}
    (h : Meets expectations results) : results.paths = expectations.map Prod.fst := by
  induction h with
  | nil => rfl
  | cons hr _ ih => rw [Results.paths_cons, List.map_cons, ih, hr.1]

theorem Meets.constants {α : Type} {path : α → Path} {holds : α → Completed → Prop} {as : List α}
    {results : Results} (h : Meets (as.map fun a => constant (path a) (holds a)) results) :
    ∃ completed, results = .fixed (as.map path) completed ∧ List.Forall₂ holds as completed := by
  induction as generalizing results with
  | nil =>
    cases h
    exact ⟨[], rfl, .nil⟩
  | cons a rest ih =>
    cases h with
    | @cons _ entry _ others hr hrest =>
      obtain ⟨hpath, completed, hresult, hholds⟩ := hr
      obtain ⟨more, rfl, hmore⟩ := ih hrest
      refine ⟨completed :: more, ?_, .cons hholds hmore⟩
      obtain ⟨_, result⟩ := entry
      obtain rfl : _ = path a := hpath
      obtain rfl : result = fun _ => completed := hresult
      rfl

/-- Expectations that lead to others, place by place. -/
theorem Meets.imp {weaker stronger : List Expectation} {results : Results}
    (h : Meets stronger results)
    (hw : List.Forall₂ Expectation.Implies stronger weaker) : Meets weaker results := by
  induction hw generalizing results with
  | nil =>
    cases h
    exact .nil
  | cons hfirst _ ih =>
    cases h with
    | cons hr hrest => exact .cons ⟨hr.1.trans hfirst.path.symm, hfirst.result _ hr.2⟩ (ih hrest)

theorem siteExpectation_mono {settlements others : List Settlement} {site : Site}
    {purpose : Purpose} (hsub : ∀ settlement ∈ settlements, settlement ∈ others)
    (hskips : ∀ other, site.path <+: other → skips others other = skips settlements other)
    (result : Bool → Completed) (h : (siteExpectation env settlements site purpose).2 result) :
    (siteExpectation env others site purpose).2 result := by
  obtain ⟨completed, hr, hfits⟩ := h
  exact ⟨completed, hr, hfits.mono hsub hskips⟩

theorem fieldExpectation_mono {settlements others : List Settlement} {frame : ObjectFrame}
    {group : FieldGroup} (phase : Phase) (hsub : ∀ settlement ∈ settlements, settlement ∈ others)
    (hskips : ∀ other, frame.path.key group.key <+: other →
      skips others other = skips settlements other) :
    (fieldExpectation env settlements frame phase group).Implies
      (fieldExpectation env others frame phase group) := by
  refine ⟨rfl, fun result ⟨completed, hr, hfits⟩ => ⟨completed, hr, ?_⟩⟩
  cases phase with
  | declare =>
    obtain ⟨found, type, hl, hfits⟩ := hfits
    exact ⟨found, type, hl, hfits.mono hsub hskips⟩
  | check | call => exact fun found type hl => (hfits found type hl).mono hsub hskips

/-- What else settles does not matter to work, unless it does so inside of its places. -/
theorem expectations_mono {settlements others : List Settlement} {piece : Work}
    (hsub : ∀ settlement ∈ settlements, settlement ∈ others)
    (hskips : ∀ path ∈ piece.owned, ∀ other, path <+: other →
      skips others other = skips settlements other) :
    List.Forall₂ Expectation.Implies (piece.expectations env settlements)
      (piece.expectations env others) := by
  have hcons : ∀ {site : Site} (settlement : Settlement),
      (∀ other, site.path <+: other → skips others other = skips settlements other) →
      (∀ other ∈ settlement :: settlements, other ∈ settlement :: others) ∧
      ∀ other, site.path <+: other →
        skips (settlement :: others) other = skips (settlement :: settlements) other := by
    intro site settlement hskips
    refine ⟨fun other ho => ?_, fun other hp => by rw [skips_cons, skips_cons, hskips other hp]⟩
    rcases List.mem_cons.mp ho with rfl | ho
    · exact List.mem_cons_self
    · exact List.mem_cons_of_mem _ (hsub other ho)
  cases piece with
  | select frame selections serial =>
    refine .cons ⟨rfl, fun result hr objectType ht required => ?_⟩ .nil
    exact (hr objectType ht required).mono hsub (hskips _ (by simp [owned]))
  | prepare frame phase groups prepared =>
    refine List.rel_append ?_ ?_
    · simp only [List.forall₂_map_left_iff, List.forall₂_map_right_iff, List.forall₂_same]
      intro entry he
      refine ⟨rfl, siteExpectation_mono hsub (hskips _ (List.mem_append_left _ ?_))⟩
      exact List.mem_map.mpr ⟨entry, he, rfl⟩
    · have hfield : ∀ phase, ∀ group ∈ groups,
          (fieldExpectation env settlements frame phase group).Implies
            (fieldExpectation env others frame phase group) := fun phase group hg =>
        fieldExpectation_mono phase hsub
          (hskips _ (List.mem_append_right _ (List.mem_map.mpr ⟨group, hg, rfl⟩)))
      cases groups with
      | nil => exact .nil
      | cons group rest =>
        refine .cons (hfield phase group List.mem_cons_self) ?_
        simp only [List.forall₂_map_left_iff, List.forall₂_map_right_iff, List.forall₂_same]
        exact fun other ho => hfield .declare other (List.mem_cons_of_mem _ ho)
  | field frame phase group =>
    exact .cons (fieldExpectation_mono phase hsub (hskips _ (by simp [owned]))) .nil
  | settle site purpose resolution =>
    exact .cons ⟨rfl, siteExpectation_mono hsub (hskips _ (by simp [owned]))⟩ .nil
  | await site purpose progress stages value =>
    exact .cons ⟨rfl, siteExpectation_mono hsub (hskips _ (by simp [owned]))⟩ .nil
  | resume site purpose value =>
    obtain ⟨hmem, hsame⟩ := hcons ⟨site.path, purpose.isAuthorizing, value⟩
      (hskips site.path (by simp [owned]))
    exact .cons ⟨rfl, siteExpectation_mono hmem hsame⟩ .nil
  | complete site content =>
    refine .cons ⟨rfl, fun result hr value hv => ?_⟩ .nil
    obtain ⟨hmem, hsame⟩ := hcons ⟨site.path, false, value⟩ (hskips site.path (by simp [owned]))
    exact siteExpectation_mono hmem hsame result (hr value hv)

end Work

end GraphQL
