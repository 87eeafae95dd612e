import GraphQL.Proofs.Halting
import Mathlib.Data.List.Nodup

/-!
# What occurs where

The order of the steps of a run does not decide what a place is for: the objects, fields and values
that may occur in a run make up a tree that hangs from its root, and one thing of each kind hangs at
a path. So what occurs at a path is the same in all runs, however their values are delayed.
-/

namespace GraphQL

open Reference

/-- What a settled value means at a site is the same, but for the delays of elements. -/
inductive Routed.Retimed : Routed → Routed → Prop where
  | skipped : Routed.Retimed .skipped .skipped
  | null (errors : List ResponseError) : Routed.Retimed (.null errors) (.null errors)
  | content {content other : Content} (h : content.Retimed other) :
      Routed.Retimed (.content content) (.content other)

theorem Site.route_retimed (site : Site) {value other : FieldValue}
    (h : FieldValue.Retimed value other) : (site.route value).Retimed (site.route other) := by
  cases h with
  | value value =>
    cases value with
    | null => exact .null _
    | _ => exact .content (.refl _)
  | list each => exact .content (.items each)
  | error error => exact .null _
  | errors errors =>
    cases errors with
    | nil => exact .content (.refl _)
    | cons error rest => exact .null _
  | skip => exact .skipped

namespace Shaped

/-- The same shape, but for the delays of the elements of a list. -/
inductive Retimed : Shaped → Shaped → Prop where
  | null (errors : List ResponseError) : Retimed (.null errors) (.null errors)
  | leaf (output : Json) : Retimed (.leaf output) (.leaf output)
  | list {items others : List Resolution} (itemType : TypeRef)
      (each : List.Forall₂ Resolution.Retimed items others) :
      Retimed (.list itemType items) (.list itemType others)
  | object (type : ObjectDef) (value : Json) : Retimed (.object type value) (.object type value)
  | fault (raised : Fault) : Retimed (.fault raised) (.fault raised)

variable {env env' : Environment} {content other : Content}

/-- Only lists are told apart by delays. -/
theorem Retimed.refl {shaped : Shaped}
    (h : ∀ itemType items, shaped ≠ .list itemType items) : shaped.Retimed shaped := by
  cases shaped with
  | null errors => exact .null errors
  | leaf output => exact .leaf output
  | list itemType items => exact absurd rfl (h itemType items)
  | object type value => exact .object type value
  | fault raised => exact .fault raised

theorem ofNamed_retimed (he : env.Retimed env') (site : Site) (hc : content.Retimed other)
    (type : TypeDef) : (ofNamed env site content type).Retimed (ofNamed env' site other type) := by
  have hsame : ofNamed env site content type = ofNamed env' site other type := by
    cases hc with
    | value value =>
      cases type <;>
        simp only [ofNamed, ofLeaf, ofAbstract, he.schema, he.context, he.registry.scalars]
    | items each => cases type <;> rfl
  rw [hsame]
  exact .refl (ofNamed_ne_list env' site other type)

theorem of_retimed (he : env.Retimed env') (site : Site) (hc : content.Retimed other)
    (type : TypeRef) : (of env site content type).Retimed (of env' site other type) := by
  induction type with
  | nonNull inner ih => exact ih
  | list item _ =>
    have hitems := hc.items?
    simp only [of]
    generalize Completion.items? content = x at hitems
    generalize Completion.items? other = y at hitems
    cases hitems with
    | none => exact .null _
    | some each => exact .list item each
  | resolved definition => exact ofNamed_retimed he site hc definition
  | late name =>
    simp only [of, he.schema, he.context]
    cases env'.schema.visibleType? env'.context name with
    | none => exact .fault _
    | some definition => exact ofNamed_retimed he site hc definition

end Shaped

/-- What a settled value at a site comes down to; nothing if it is skipped. -/
def Site.shape (env : Environment) (site : Site) (value : FieldValue) : Option Shaped :=
  match site.route value with
  | .skipped => none
  | .null errors => some (.null errors)
  | .content content => some (Shaped.of env site content site.type)

theorem Site.shape_retimed {env env' : Environment} (he : env.Retimed env') (site : Site)
    {value other : FieldValue} (h : FieldValue.Retimed value other) :
    Option.Rel Shaped.Retimed (site.shape env value) (site.shape env' other) := by
  have hroute := site.route_retimed h
  unfold shape
  generalize site.route value = routed at hroute
  generalize site.route other = routed' at hroute
  cases hroute with
  | skipped => exact .none
  | null errors => exact .some (.null errors)
  | content hc => exact .some (Shaped.of_retimed he site hc site.type)

/-- A list has the same type however its value is delayed, and its elements settle to the same. -/
theorem Site.list_retimed {env env' : Environment} (he : env.Retimed env') {site : Site}
    {value other : FieldValue} (h : FieldValue.Retimed value other) {itemType itemType' : TypeRef}
    {items items' : List Resolution} (hs : site.shape env value = some (.list itemType items))
    (hs' : site.shape env' other = some (.list itemType' items')) {place : Nat}
    {item item' : Resolution} (hi : items[place]? = some item) (hi' : items'[place]? = some item') :
    itemType = itemType' ∧ FieldValue.Retimed item.settled item'.settled := by
  have hshape := site.shape_retimed he h
  rw [hs, hs'] at hshape
  cases hshape with
  | some hshape =>
    cases hshape with | list _ each
    obtain ⟨hlt, rfl⟩ := List.getElem?_eq_some_iff.mp hi
    obtain ⟨hlt', rfl⟩ := List.getElem?_eq_some_iff.mp hi'
    cases (List.forall₂_iff_get.mp each).2 place hlt hlt' with
    | intro _ hsettled => exact ⟨rfl, hsettled⟩

/-- An object is the same however its value is delayed. -/
theorem Site.object_retimed {env env' : Environment} (he : env.Retimed env') {site : Site}
    {value other : FieldValue} (h : FieldValue.Retimed value other) {type type' : ObjectDef}
    {data data' : Json} (hs : site.shape env value = some (.object type data))
    (hs' : site.shape env' other = some (.object type' data')) : type = type' ∧ data = data' := by
  have hshape := site.shape_retimed he h
  rw [hs, hs'] at hshape
  cases hshape with
  | some hshape =>
    cases hshape
    exact ⟨rfl, rfl⟩

/-- What an object is exposed as is the same however its authorizer is delayed. -/
theorem Site.exposed_retimed {site : Site} {value other : FieldValue}
    (h : FieldValue.Retimed value other) {data data' : Json}
    (hr : site.route value = .content (.value data))
    (hr' : site.route other = .content (.value data')) : data = data' := by
  have hroute := site.route_retimed h
  rw [hr, hr'] at hroute
  cases hroute with | content hc
  cases hc
  rfl

/-- Something that occurs in a run. -/
inductive Occurrence where
  /-- An object with the selections that are executed on it. -/
  | object (frame : ObjectFrame) (selections : List Selection)
  | field (frame : ObjectFrame) (group : FieldGroup)
  /-- The value of a field or of an element of a list, as it settles. -/
  | value (site : Site) (settled : FieldValue)
  /-- What a value is exposed as by the authorizer of its object type. -/
  | exposed (site : Site) (type : ObjectDef) (settled : FieldValue)

/-- What may occur in a run whose root is executed with some selections. -/
inductive Occurs (env : Environment) (root : ObjectFrame) (top : List Selection) :
    Occurrence → Prop where
  | root : Occurs env root top (.object root top)
  | field {frame : ObjectFrame} {selections : List Selection} {groups : List FieldGroup}
      {group : FieldGroup} (parent : Occurs env root top (.object frame selections))
      (hg : Gathering.collect env.schema env.document env.context frame.type selections =
        .ok groups) (hm : group ∈ groups) : Occurs env root top (.field frame group)
  | answer {frame : ObjectFrame} {group : FieldGroup} {found : FieldLookup} {type : TypeRef}
      (parent : Occurs env root top (.field frame group))
      (hl : lookup env frame group = .ok (found, type)) :
      Occurs env root top (.value (site env frame group found type)
        (answer env frame group found type).1.resolution.settled)
  | element {site : Site} {value : FieldValue} {itemType : TypeRef} {items : List Resolution}
      {place : Nat} {item : Resolution} (parent : Occurs env root top (.value site value))
      (hs : site.shape env value = some (.list itemType items)) (hi : items[place]? = some item) :
      Occurs env root top (.value (site.item itemType place) item.settled)
  | expose {site : Site} {value : FieldValue} {type : ObjectDef} {data : Json}
      (parent : Occurs env root top (.value site value))
      (hs : site.shape env value = some (.object type data)) :
      Occurs env root top
        (.exposed site type (env.registry.authorize type data env.context).settled)
  | enter {site : Site} {type : ObjectDef} {value : FieldValue} {data : Json}
      (parent : Occurs env root top (.exposed site type value))
      (hr : site.route value = .content (.value data)) :
      Occurs env root top
        (.object { path := site.path, type := .object type, value := data } site.field.selections)

namespace Occurrence

/-- True of occurrences of one kind at one path. -/
def Beside : Occurrence → Occurrence → Prop
  | object frame _, object frame' _ => frame.path = frame'.path
  | field frame group, field frame' group' =>
    frame.path.key group.key = frame'.path.key group'.key
  | value site _, value site' _ => site.path = site'.path
  | exposed site _ _, exposed site' _ _ => site.path = site'.path
  | _, _ => False

/-- The same occurrence, but for delays. -/
inductive Retimed : Occurrence → Occurrence → Prop where
  | object (frame : ObjectFrame) (selections : List Selection) :
      Retimed (.object frame selections) (.object frame selections)
  | field (frame : ObjectFrame) (group : FieldGroup) : Retimed (.field frame group) (.field frame group)
  | value (site : Site) {settled other : FieldValue} (h : FieldValue.Retimed settled other) :
      Retimed (.value site settled) (.value site other)
  | exposed (site : Site) (type : ObjectDef) {settled other : FieldValue}
      (h : FieldValue.Retimed settled other) :
      Retimed (.exposed site type settled) (.exposed site type other)

end Occurrence

namespace Occurs

variable {env env' : Environment} {root : ObjectFrame} {top : List Selection}

/-- Values occur inside of the root. -/
theorem path_ne_nil {site : Site} {value : FieldValue}
    (h : Occurs env root top (.value site value)) : site.path ≠ [] := by
  cases h with
  | answer | element => exact List.concat_ne_nil _ _

theorem exposed_path_ne_nil {site : Site} {type : ObjectDef} {value : FieldValue}
    (h : Occurs env root top (.exposed site type value)) : site.path ≠ [] := by
  cases h with
  | expose parent => exact parent.path_ne_nil

/-- **One thing of each kind occurs at a path**, and the same one however values are delayed. -/
theorem retimed (he : env.Retimed env') (hroot : root.path = []) {x y : Occurrence}
    (hx : Occurs env root top x) (hy : Occurs env' root top y) (hb : x.Beside y) : x.Retimed y := by
  induction hx generalizing y with
  | root =>
    cases hy with
    | root => exact .object _ _
    | enter parent hr => exact absurd (hb.symm.trans hroot) parent.exposed_path_ne_nil
    | field | answer | element | expose => cases hb
  | @field frame selections groups group parent hg hm ih =>
    cases hy with
    | @field _ _ others other parent' hg' hm' =>
      obtain ⟨hpath, hkey⟩ := List.append_inj' hb rfl
      cases ih parent' hpath
      rw [he.schema, he.document, he.context, hg'] at hg
      obtain rfl := Except.ok.inj hg
      have hkey : group.key = other.key := by simpa using hkey
      obtain rfl := List.inj_on_of_nodup_map (Gathering.nodup_collect hg') hm hm' hkey
      exact .field _ _
    | root | answer | element | expose | enter => cases hb
  | @answer frame group found type parent hl ih =>
    cases hy with
    | answer parent' hl' =>
      cases ih parent' hb
      rw [lookup_retimed he, hl'] at hl
      obtain ⟨rfl, rfl⟩ := Prod.mk.inj (Except.ok.inj hl)
      rw [site_retimed he]
      exact .value _ (answer_retimed he frame group _ _).1.settled
    | element =>
      have hlast := (List.append_inj' hb rfl).2
      cases List.singleton_inj.mp hlast
    | root | field | expose | enter => cases hb
  | @element site value itemType items place item parent hs hi ih =>
    cases hy with
    | answer =>
      have hlast := (List.append_inj' hb rfl).2
      cases List.singleton_inj.mp hlast
    | @element _ other itemType' items' place' item' parent' hs' hi' =>
      obtain ⟨hpath, hplace⟩ := List.append_inj' hb rfl
      obtain rfl : place = place' := by simpa using hplace
      cases ih parent' hpath with
      | value _ hv =>
        obtain ⟨rfl, hsettled⟩ := Site.list_retimed he hv hs hs' hi hi'
        exact .value _ hsettled
    | root | field | expose | enter => cases hb
  | @expose site value type data parent hs ih =>
    cases hy with
    | @expose _ other type' data' parent' hs' =>
      cases ih parent' hb with
      | value _ hv =>
        obtain ⟨rfl, rfl⟩ := Site.object_retimed he hv hs hs'
        rw [he.context]
        exact .exposed _ _ (he.registry.authorize _ _ _)
    | root | field | answer | element | enter => cases hb
  | @enter site type value data parent hr ih =>
    cases hy with
    | root => exact absurd (hb.trans hroot) parent.exposed_path_ne_nil
    | @enter _ type' other data' parent' hr' =>
      cases ih parent' hb with
      | exposed _ _ hv =>
        obtain rfl := Site.exposed_retimed hv hr hr'
        exact .object _ _
    | field | answer | element | expose => cases hb

/-- A value that is exposed has the shape of an object. -/
theorem of_exposed {site : Site} {type : ObjectDef} {value : FieldValue}
    (h : Occurs env root top (.exposed site type value)) :
    ∃ source data, Occurs env root top (.value site source) ∧
      site.shape env source = some (.object type data) := by
  cases h with
  | expose parent hs => exact ⟨_, _, parent, hs⟩

theorem shape_retimed (he : env.Retimed env') (hroot : root.path = []) {site site' : Site}
    {value value' : FieldValue} {shaped shaped' : Shaped}
    (ho : Occurs env root top (.value site value)) (hs : site.shape env value = some shaped)
    (ho' : Occurs env' root top (.value site' value')) (hs' : site'.shape env' value' = some shaped')
    (hp : site.path = site'.path) : shaped.Retimed shaped' := by
  cases ho.retimed he hroot ho' hp with
  | value _ hv =>
    have hshape := site.shape_retimed he hv
    rw [hs, hs'] at hshape
    cases hshape with
    | some hshape => exact hshape

theorem route_retimed (he : env.Retimed env') (hroot : root.path = []) {site site' : Site}
    {type type' : ObjectDef} {value value' : FieldValue}
    (ho : Occurs env root top (.exposed site type value))
    (ho' : Occurs env' root top (.exposed site' type' value')) (hp : site.path = site'.path) :
    site = site' ∧ type = type' ∧ (site.route value).Retimed (site'.route value') := by
  cases ho.retimed he hroot ho' hp with
  | exposed _ _ hv => exact ⟨rfl, rfl, site.route_retimed hv⟩

end Occurs

/-- What occurs at a path ends there with errors and a null. -/
inductive EndsWith (env : Environment) (root : ObjectFrame) (top : List Selection) :
    Path → List ResponseError → Prop where
  | value {site : Site} {value : FieldValue} {errors : List ResponseError}
      (ho : Occurs env root top (.value site value))
      (hs : site.shape env value = some (.null errors)) : EndsWith env root top site.path errors
  | exposed {site : Site} {type : ObjectDef} {value : FieldValue} {errors : List ResponseError}
      (ho : Occurs env root top (.exposed site type value)) (hr : site.route value = .null errors) :
      EndsWith env root top site.path errors
  | refused {site : Site} {type : ObjectDef} {value : FieldValue} {items : List Resolution}
      (ho : Occurs env root top (.exposed site type value))
      (hr : site.route value = .content (.items items)) :
      EndsWith env root top site.path [site.failure (.listForAuthorized type.name)]

namespace EndsWith

variable {env env' : Environment} {root : ObjectFrame} {top : List Selection} {path : Path}
variable {errors others : List ResponseError}

/-- **The errors with which a path ends are one list**, however values are delayed. -/
theorem unique (he : env.Retimed env') (hroot : root.path = [])
    (h : EndsWith env root top path errors) {other : Path}
    (h' : EndsWith env' root top other others) (hp : path = other) : errors = others := by
  cases h with
  | value ho hs =>
    cases h' with
    | value ho' hs' =>
      cases ho.shape_retimed he hroot hs ho' hs' hp
      rfl
    | exposed ho' | refused ho' =>
      -- a value does not both end and go on to be exposed
      obtain ⟨source, data, hsource, hobject⟩ := ho'.of_exposed
      cases ho.shape_retimed he hroot hs hsource hobject hp
  | exposed ho hr =>
    cases h' with
    | value ho' hs' =>
      obtain ⟨source, data, hsource, hobject⟩ := ho.of_exposed
      cases hsource.shape_retimed he hroot hobject ho' hs' hp
    | exposed ho' hr' =>
      obtain ⟨rfl, -, hroute⟩ := ho.route_retimed he hroot ho' hp
      rw [hr, hr'] at hroute
      cases hroute
      rfl
    | refused ho' hr' =>
      obtain ⟨rfl, -, hroute⟩ := ho.route_retimed he hroot ho' hp
      rw [hr, hr'] at hroute
      cases hroute
  | refused ho hr =>
    cases h' with
    | value ho' hs' =>
      obtain ⟨source, data, hsource, hobject⟩ := ho.of_exposed
      cases hsource.shape_retimed he hroot hobject ho' hs' hp
    | exposed ho' hr' =>
      obtain ⟨rfl, -, hroute⟩ := ho.route_retimed he hroot ho' hp
      rw [hr, hr'] at hroute
      cases hroute
    | refused ho' hr' =>
      obtain ⟨rfl, rfl, -⟩ := ho.route_retimed he hroot ho' hp
      rfl

end EndsWith

end GraphQL
