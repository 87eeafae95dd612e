import GraphQL.Proofs.Descriptions
import GraphQL.Proofs.Soundness
import GraphQL.Proofs.Validity
import GraphQL.Proofs.Veils

/-!
# Introspection is well typed

Valid selections on descriptions of a schema come to data of their declared types, without an error
and without a fault. By the reference semantics this is an argument about one value at a time: a
value of a declared type is a leaf that coerces to itself, or a list of such values, or a
description, each field of which is answered with a value of its declared type again.
-/

namespace GraphQL

open Evaluation
open Introspection (Describes Fits)

namespace Evaluation

variable {α β : Type}

/-- Unfinished, or finished without an error and with a result of which this holds. -/
inductive Clean (P : α → Prop) : Evaluation α → Prop where
  | unfinished : Clean P .unfinished
  | done {result : α} {log : Log} (hp : P result) (he : log.errors = []) :
      Clean P (.done result log)

namespace Clean

variable {P : α → Prop} {Q : β → Prop} {x : Evaluation α}

theorem imp {R : α → Prop} (h : x.Clean P) (hi : ∀ {a}, P a → R a) : x.Clean R := by
  cases h with
  | unfinished => exact .unfinished
  | done hp he => exact .done (hi hp) he

theorem after (h : x.Clean P) {log : Log} (hl : log.errors = []) : (x.after log).Clean P := by
  cases h with
  | unfinished => exact .unfinished
  | done hp he => exact .done hp (by simp [hl, he])

theorem map {f : α → β} (h : x.Clean P) (hf : ∀ {a}, P a → Q (f a)) : (x.map f).Clean Q := by
  cases h with
  | unfinished => exact .unfinished
  | done hp he => exact .done (hf hp) he

theorem bind {next : α → Evaluation β} (h : x.Clean P) (hn : ∀ {a}, P a → (next a).Clean Q) :
    (x.bind next).Clean Q := by
  cases h with
  | unfinished => exact .unfinished
  | done hp he => exact (hn hp).after he

theorem all {R : β → α → Prop} {bs : List β} {xs : List (Evaluation α)}
    (h : List.Forall₂ (fun b x => x.Clean (R b)) bs xs) :
    (Evaluation.all xs).Clean (List.Forall₂ R bs) := by
  induction h with
  | nil => exact .done .nil rfl
  | cons hx _ ih => exact hx.bind fun ha => ih.map fun has => .cons ha has

/-- A finished evaluation that is clean has a result. -/
theorem finished (h : x.Clean P) (hx : x ≠ .unfinished) :
    ∃ result log, x = .done result log ∧ P result ∧ log.errors = [] := by
  cases h with
  | unfinished => exact absurd rfl hx
  | @done result log hp he => exact ⟨result, log, rfl, hp, he⟩

end Clean

end Evaluation

namespace Completed

theorem members?_ne_none {fields : List (String × Completed)}
    (h : ∀ field ∈ fields, field.2 ≠ propagating) : members? fields ≠ none := by
  induction fields with
  | nil => exact fun he => nomatch he
  | cons field rest ih =>
    obtain ⟨name, completed⟩ := field
    obtain ⟨hfirst, hrest⟩ := List.forall_mem_cons.mp h
    cases completed with
    | absent => exact ih hrest
    | propagating => exact absurd rfl hfirst
    | value data => simpa [members?] using ih hrest

theorem items?_ne_none {elements : List Completed}
    (h : ∀ element ∈ elements, element ≠ propagating) : items? elements ≠ none := by
  induction elements with
  | nil => exact fun he => nomatch he
  | cons element rest ih =>
    obtain ⟨hfirst, hrest⟩ := List.forall_mem_cons.mp h
    cases element with
    | absent => simpa [items?] using ih hrest
    | propagating => exact absurd rfl hfirst
    | value data => simpa [items?] using ih hrest

/-- The position comes to data of the type. -/
def Renders (env : Environment) (type : TypeRef) (selections : List Selection) (path : Path)
    (completed : Completed) : Prop :=
  ∃ data, completed = .value data ∧ Conforms env [] type selections path data

variable {env : Environment} {type : TypeRef} {selections : List Selection} {path : Path}
  {completed : Completed}

theorem Renders.ne_propagating (h : completed.Renders env type selections path) :
    completed ≠ propagating := by
  obtain ⟨data, rfl, -⟩ := h
  exact fun he => nomatch he

theorem Renders.fits (h : completed.Renders env type selections path) :
    completed.Fits env [] type.isNonNull type selections path := by
  obtain ⟨data, rfl, hc⟩ := h
  refine .value rfl ?_ hc
  rintro rfl
  cases hc with
  | null hn => exact hn
  | nonNull hv => exact absurd rfl hv
  | _ => rfl

theorem forall_ne_propagating {α : Type} {R : α → Completed → Prop} {as : List α}
    {completed : List Completed} (h : List.Forall₂ R as completed)
    (hr : ∀ a own, R a own → own ≠ propagating) : ∀ own ∈ completed, own ≠ propagating := by
  induction h with
  | nil => exact fun _ hm => nomatch hm
  | cons hfirst _ ih => exact List.forall_mem_cons.mpr ⟨hr _ _ hfirst, ih⟩

/-- Data of one type that are of another as well, null aside. -/
theorem Renders.wrap {inner : TypeRef} (h : completed.Renders env (.nonNull inner) selections path)
    (hw : ∀ {data}, data ≠ .null → Conforms env [] inner selections path data →
      Conforms env [] type selections path data) :
    completed.Renders env (.nonNull type) selections path := by
  obtain ⟨data, rfl, hc⟩ := h
  cases hc with
  | null hn => cases hn
  | nonNull hv hc => exact ⟨data, rfl, .nonNull hv (hw hv hc)⟩

theorem Renders.of_nonNull (h : completed.Renders env (.nonNull type) selections path) :
    completed.Renders env type selections path := by
  obtain ⟨data, rfl, hc⟩ := h
  cases hc with
  | null hn => cases hn
  | nonNull hv hc => exact ⟨data, rfl, hc⟩

theorem Fits.renders {data : Json} {required : Bool} (hn : data ≠ .null)
    (h : (Completed.value data).Fits env [] required type selections path) :
    (Completed.value data).Renders env (.nonNull type) selections path := by
  cases h with
  | value _ _ hc => exact ⟨data, rfl, .nonNull hn hc⟩

/-- A list comes to data if its elements do. -/
theorem Renders.list {item : TypeRef} {count : Nat} {elements : List Completed}
    (h : List.Forall₂ (fun place element => element.Renders env item selections (path.index place))
      (List.range count) elements) (required : Bool) :
    (Completed.list required elements).Renders env (.nonNull (.list item)) selections path := by
  have hdata := forall_ne_propagating h fun _ _ hr => hr.ne_propagating
  obtain ⟨items, hitems⟩ := Option.ne_none_iff_exists'.mp (items?_ne_none hdata)
  have hlist : Completed.list required elements = .value (.arr items) := by
    rw [Completed.list, hitems]
  have hfits : List.Forall₂ (fun place element => element.Fits env [] item.isNonNull item selections
      place) ((List.range count).map path.index) elements := by
    rw [List.forall₂_map_left_iff]
    exact h.imp fun _ _ hr => hr.fits
  have hresult : (Completed.list required elements).Fits env [] required (.list item) selections
      path := Fits.list rfl (fun he => absurd he Bool.false_ne_true) (fun _ each => .list each)
    (fun _ => rfl) hfits
  rw [hlist] at hresult ⊢
  exact hresult.renders Json.noConfusion

/-- The field is known and comes to data of its type. -/
def RendersField (env : Environment) (frame : ObjectFrame) (group : FieldGroup)
    (completed : Completed) : Prop :=
  ∃ found type, Reference.lookup env frame group = .ok (found, type) ∧
    completed.Renders env type group.selections (frame.path.key group.key)

theorem RendersField.ne_propagating {frame : ObjectFrame} {group : FieldGroup}
    (h : completed.RendersField env frame group) : completed ≠ propagating := by
  obtain ⟨_, _, -, hr⟩ := h
  exact hr.ne_propagating

theorem RendersField.fits {frame : ObjectFrame} {group : FieldGroup}
    (h : completed.RendersField env frame group) : Fits.Field env [] frame group completed := by
  obtain ⟨found, type, hl, hr⟩ := h
  exact ⟨found, type, hl, hr.fits⟩

/-- An object comes to data if its fields do. -/
theorem Renders.object {frame : ObjectFrame} {owner : ObjectDef} {groups : List FieldGroup}
    {fields : List Completed} (ht : frame.type = .object owner)
    (hg : Gathering.collect env.schema env.document env.context frame.type selections = .ok groups)
    (h : List.Forall₂ (RendersField env frame) groups fields) (required : Bool) :
    (Completed.object required ((groups.map FieldGroup.key).zip fields)).Renders env
      (.nonNull (.resolved (.object owner))) selections frame.path := by
  have hdata := forall_ne_propagating h fun _ _ hr => hr.ne_propagating
  obtain ⟨members, hmembers⟩ := Option.ne_none_iff_exists'.mp (members?_ne_none
    fun field hm => hdata field.2 (List.of_mem_zip hm).2)
  have hobject : Completed.object required ((groups.map FieldGroup.key).zip fields) =
      .value (.obj members) := by
    rw [Completed.object, hmembers]
  have hresult := Fits.object ht hg rfl (h.imp fun _ _ hr => hr.fits) required
  rw [hobject] at hresult ⊢
  exact hresult.renders Json.noConfusion

end Completed

/-- The registry holds nothing of the application's for the standard types and scalars: the fields
of the types are resolved as in the registry from which an application starts. -/
structure Registry.KeepsStandard (registry : Registry) : Prop where
  resolvers : ∀ type ∈ Schema.standard.types, ∀ field ∈ type.fields?.getD [],
    registry.resolver? type.name field.name = Registry.standard.resolver? type.name field.name
  authorizers : ∀ type ∈ Schema.standard.types, registry.authorizer? type.name = none
  scalars : ∀ name ∈ builtinScalars, Members.get? name registry.scalars = none

/-- An environment in which introspection describes the schema. -/
structure Environment.SelfDescribing (env : Environment) : Prop where
  describable : env.schema.Describable env.context
  visible : ∀ type ∈ Schema.standard.types,
    env.schema.visibleType? env.context type.name = some type
  registry : env.registry.KeepsStandard
  enabled : env.config.introspection = true

namespace Reference

variable {env : Environment}
  {fields : ObjectFrame → List Selection → Evaluation (List (String × Completed))}

/-- What the fields of an object come to makes up data of its type. -/
def Assembles (env : Environment) (path : Path) (owner : ObjectDef) (selections : List Selection)
    (own : List (String × Completed)) : Prop :=
  ∀ required, (Completed.object required own).Renders env (.nonNull (.resolved (.object owner)))
    selections path

/-- If the type is an object type, the selections on its descriptions come to data. -/
def Explores (env : Environment)
    (fields : ObjectFrame → List Selection → Evaluation (List (String × Completed)))
    (selections : List Selection) (type : TypeDef) : Prop :=
  ∀ owner, type = .object owner → .object owner ∈ Schema.standard.types → ∀ path value,
    Describes env.schema env.context owner.name value →
      (fields { path, type := .object owner, value } selections).Clean
        (Assembles env path owner selections)

theorem leaf_done {site : Site} {type : Leaf.LeafDef} {value : Json}
    (h : Leaf.coerce env.registry.scalars type value = .ok value) (hn : value ≠ .null) :
    leaf env site type (.value value) = .done (.value value) {} := by
  simp only [leaf, h]

/-- A description is completed without errors, by its standard type. -/
theorem named_clean (h : env.SelfDescribing) {definition : TypeDef}
    (hv : env.schema.visibleType? env.context definition.name = some definition) {value : Json}
    (hd : Describes env.schema env.context definition.name value) {site : Site}
    (hf : Explores env fields site.field.selections definition) :
    (named env fields site definition (.value value)).Clean <|
      Completed.Renders env (.nonNull (.resolved definition)) site.field.selections site.path := by
  obtain ⟨type, hm, hname, hshape⟩ := hd.standard
  obtain rfl : type = definition :=
    Option.some.inj ((h.visible type hm).symm.trans (hname ▸ hv))
  rcases hshape with ⟨owner, rfl⟩ | ⟨leaf, rfl, hbuiltin, hcoerce⟩ | ⟨leaf, rfl, hcoerce⟩
  · have hauthorize : env.registry.authorize owner value env.context = .ready (.value value) := by
      have hnone : env.registry.authorizer? owner.name = none := h.registry.authorizers _ hm
      rw [Registry.authorize, hnone]
    have hroute : site.route (.value value) = .content (.value value) := Site.route_value hd.ne_null
    simp only [named, object, hauthorize, Resolution.settled, routed, hroute, entered]
    exact (hf owner rfl hm site.path value hd).map fun ha => ha _
  · have hc := hcoerce _ (h.registry.scalars _ hbuiltin)
    rw [named, leaf_done hc hd.ne_null]
    exact .done ⟨value, rfl, .nonNull hd.ne_null (.scalar (Leaf.admits_coerce hc))⟩ rfl
  · have hc := hcoerce env.registry.scalars
    rw [named, leaf_done hc hd.ne_null]
    exact .done ⟨value, rfl, .nonNull hd.ne_null (.enum (Leaf.admits_coerce hc))⟩ rfl

/-- A value that has settled is completed without errors, as its type admits it if it is null. -/
theorem settled_clean {site : Site} {value : Json}
    (hfits : Fits env.schema env.context site.type value)
    (hc : value ≠ .null → (complete env fields site.type site (.value value)).Clean
      (Completed.Renders env (.nonNull site.type) site.field.selections site.path)) :
    (settled site (.ready (.value value)) (complete env fields site.type site)).Clean
      (Completed.Renders env site.type site.field.selections site.path) := by
  refine Clean.after ?_ (by simp [Resolution.reports, Resolution.stages])
  by_cases hn : value = .null
  · subst hn
    have hnull := hfits.nullable
    simp only [Resolution.settled, routed, Site.route, hnull, ended, Completed.null]
    exact .done ⟨.null, rfl, .null hnull⟩ rfl
  · have hroute : site.route (.value value) = .content (.value value) := Site.route_value hn
    simp only [Resolution.settled, routed, hroute]
    exact (hc hn).imp fun hr => hr.of_nonNull

/-- A value that is not null is completed without errors by its type. -/
theorem complete_clean (h : env.SelfDescribing) {type : TypeRef} {value : Json} {site : Site}
    (hfits : Fits env.schema env.context type value) (hn : value ≠ .null)
    (hf : ∀ definition, env.schema.visibleType? env.context type.baseName = some definition →
      Explores env fields site.field.selections definition) :
    (complete env fields type site (.value value)).Clean
      (Completed.Renders env (.nonNull type) site.field.selections site.path) := by
  induction type generalizing value site with
  | resolved definition =>
    cases hfits with
    | null => exact absurd rfl hn
    | resolved hv hd => exact named_clean h hv hd (hf definition hv)
  | late name =>
    cases hfits with
    | null => exact absurd rfl hn
    | late hd =>
      obtain ⟨type, hm, rfl, -⟩ := hd.standard
      have hv := h.visible type hm
      rw [complete, hv]
      exact (named_clean h hv hd (hf type hv)).imp fun hr => hr.wrap fun _ hc => .late hv hc
  | nonNull inner ih =>
    cases hfits with
    | null => exact absurd rfl hn
    | nonNull _ hfits => exact (ih hfits hn hf).imp fun hr => hr.wrap .nonNull
  | list item ih =>
    cases hfits with
    | null => exact absurd rfl hn
    | @list _ values each =>
      have heach : List.Forall₂ (fun place x => x.Clean
          (Completed.Renders env item site.field.selections (site.path.index place)))
          (List.range values.length) (((elements site item values.length).zip
            (values.map fun value => .ready (.value value))).map fun element =>
              settled element.1 element.2 (complete env fields item element.1)) := by
        refine List.forall₂_iff_get.mpr ⟨by simp [elements], fun place hp _ => ?_⟩
        have hplace : place < values.length := by simpa using hp
        simp only [List.get_eq_getElem, List.getElem_map, List.getElem_zip, List.getElem_range,
          elements]
        have hm : values[place] ∈ values := List.getElem_mem hplace
        exact @settled_clean env fields (site.item item place) _ (each _ hm) fun hnull =>
          ih (each _ hm) hnull hf
      simp only [complete, Completion.items?, List.length_map]
      exact (Clean.all heach).map fun hall => Completed.Renders.list hall _

/-- The fields that are selected on an object are those of introspection or, if it stands for a
description, those of its type. -/
def Served (env : Environment) (frame : ObjectFrame) (owner : ObjectDef) (node : FieldNode) :
    Prop :=
  ∀ definition, env.schema.field? frame.type node.name = some (.ordinary definition) →
    .object owner ∈ Schema.standard.types ∧
      Describes env.schema env.context owner.name frame.value

/-- A field is answered at once, with a value of its type. -/
theorem answer_fits (h : env.SelfDescribing) {frame : ObjectFrame} {owner : ObjectDef}
    (ht : frame.type = .object owner) {group : FieldGroup} (hs : Served env frame owner group.node)
    {found : FieldLookup} {type : TypeRef} (hl : lookup env frame group = .ok (found, type)) :
    ∃ value, (answer env frame group found type).1 = .ready (.value value) ∧
      Fits env.schema env.context type value := by
  obtain ⟨hfound, hresolve⟩ := lookup_ok hl
  cases found with
  | introspection field =>
    obtain ⟨value, hvalue, hfits⟩ := Introspection.answer_fits frame.type
      (arguments env frame group (.introspection field)) field
    refine ⟨value, ?_, hfits.resolve hresolve⟩
    rw [answer, h.enabled, hvalue]
  | ordinary definition =>
    obtain ⟨hstandard, hd⟩ := hs definition hfound
    have hfield : env.schema.field? (.object owner) group.node.name = some (.ordinary definition) :=
      ht ▸ hfound
    have hname := Schema.name_of_ordinary hfield
    have hmember := Schema.mem_fields_of_ordinary hfield
    obtain ⟨resolver, source, hresolver, value, hvalue, hfits⟩ :=
      hd.answers h.describable hstandard hmember (arguments env frame group (.ordinary definition))
        { fieldName := group.node.name, parentType := frame.type.name, returnType := type.text,
          path := frame.path.key group.key, schema := some env.schema } rfl hname.symm
    refine ⟨value, ?_, hfits.resolve hresolve⟩
    have hregistry : env.registry.resolver? frame.type.name group.node.name =
        some (resolver, source) := by
      rw [ht, ← hname, h.registry.resolvers _ hstandard definition hmember]
      exact hresolver
    simp only [answer, hregistry, hvalue]

/-- A field is known, and its type is a standard one that the request sees. -/
theorem lookup_served (h : env.SelfDescribing) {frame : ObjectFrame} {owner : ObjectDef}
    (ht : frame.type = .object owner) {group : FieldGroup} (hs : Served env frame owner group.node)
    {found : FieldLookup} (hf : env.schema.field? frame.type group.node.name = some found) :
    ∃ type, lookup env frame group = .ok (found, type) ∧
      type.baseName = found.definition.type.baseName := by
  have hstandard : found.definition.type.baseName ∈ Schema.standard.types.map TypeDefOf.name := by
    cases found with
    | introspection field => cases field <;> decide
    | ordinary definition =>
      have hfield : definition ∈ owner.fields := Schema.mem_fields_of_ordinary (ht ▸ hf)
      exact (Introspection.isStandard_field (hs definition hf).1 hfield).2
  obtain ⟨definition, hm, hname⟩ := List.mem_map.mp hstandard
  have hv := h.visible definition hm
  simp only [lookup, hf]
  generalize found.definition.type = declared at hname ⊢
  cases declared with
  | late name =>
    obtain rfl : definition.name = name := hname
    exact ⟨.resolved definition, by simp [Schema.resolve, hv], rfl⟩
  | _ => exact ⟨_, rfl, rfl⟩

/-- A field comes to data of its type. -/
theorem field_clean (h : env.SelfDescribing) {frame : ObjectFrame} {owner : ObjectDef}
    (ht : frame.type = .object owner) {group : FieldGroup} (hs : Served env frame owner group.node)
    {found : FieldLookup} {type : TypeRef} (hl : lookup env frame group = .ok (found, type))
    (hf : ∀ definition, env.schema.visibleType? env.context type.baseName = some definition →
      Explores env fields group.selections definition) :
    (field env fields (site env frame group found type,
      (answer env frame group found type).1)).Clean
        (Completed.Renders env type group.selections (frame.path.key group.key)) := by
  obtain ⟨value, hvalue, hfits⟩ := answer_fits h ht hs hl
  rw [field, hvalue]
  refine Clean.after ?_ (collected_nil _)
  exact @settled_clean env fields (site env frame group found type) value hfits fun hn =>
    complete_clean h hfits hn hf

/-- Fields whose completion is clean are completed together. -/
theorem completeAll_clean {frame : ObjectFrame} {groups : List FieldGroup}
    {next : Site × Reply → Evaluation Completed} {P : FieldGroup → Completed → Prop}
    (h : ∀ group ∈ groups, ∃ prepared log, prepare env frame group = .done prepared log ∧
      log.errors = [] ∧ (next prepared).Clean (P group)) :
    (completeAll env frame groups false next).Clean (List.Forall₂ P groups) := by
  have hprepare : (Evaluation.all (groups.map (prepare env frame))).Clean
      (List.Forall₂ (fun group prepared => (next prepared).Clean (P group)) groups) := by
    refine Clean.all ?_
    rw [List.forall₂_map_right_iff, List.forall₂_same]
    intro group hm
    obtain ⟨prepared, log, hp, he, hn⟩ := h group hm
    exact hp ▸ .done hn he
  refine hprepare.bind fun hnext => Clean.all ?_
  rwa [List.forall₂_map_right_iff]

/-- Valid selections on an object come to data, one level below the other. -/
theorem select_clean (h : env.SelfDescribing) (depth : Nat) {frame : ObjectFrame}
    {owner : ObjectDef} (ht : frame.type = .object owner) {selections : List Selection}
    (hv : env.Valid frame.type {selection | selection ∈ selections})
    (hs : ∀ node, env.Offers frame.type {selection | selection ∈ selections} node →
      Served env frame owner node) :
    (select env depth frame selections false).Clean
      (Assembles env frame.path owner selections) := by
  -- below the root every object is a description, whatever the object above it was
  induction depth generalizing frame owner selections with
  | zero => exact .unfinished
  | succ depth ih =>
    obtain ⟨groups, hg, hgroups⟩ := Gathering.collect_valid hv
    rw [select, hg]
    refine (completeAll_clean (P := Completed.RendersField env frame) fun group hm => ?_).map
      fun hall required => Completed.Renders.object ht hg hall required
    obtain ⟨ho, found, hfound, hbelow⟩ := hgroups group hm
    obtain ⟨type, hl, hname⟩ := lookup_served h ht (hs _ ho) hfound
    refine ⟨_, _, by rw [prepare, hl], rfl, ?_⟩
    refine (field_clean h ht (hs _ ho) hl fun definition hd => ?_).imp
      fun hr => ⟨found, type, hl, hr⟩
    rintro inner rfl hstandard path value hdescribes
    exact @ih { path, type := .object inner, value } inner rfl group.selections
      (hbelow _ (hname ▸ hd)) fun node _ _ _ => ⟨hstandard, hdescribes⟩

end Reference

theorem Schema.rootType_ok {schema : Schema} {context : Context} {kind : OperationKind}
    {type : TypeDef} (h : schema.rootType context kind = .ok type) :
    ∃ name, schema.rootName? kind = some name ∧ schema.visibleType? context name = some type := by
  unfold Schema.rootType at h
  split at h
  · cases h
  · next name hname =>
    split at h
    · next definition hv => exact ⟨name, hname, Except.ok.inj h ▸ hv⟩
    · cases h

namespace Executor

/-- What the reference comes to without errors is what every run ends with. -/
theorem Reaches.of_clean {executor : Executor} {schema : Schema} {request : Request} {depth : Nat}
    {data : Json} {log : Log}
    (h : Reference.execute executor schema request depth = .done data log) (he : log.errors = [])
    {result : Except Fault Execution} (hr : executor.Reaches schema request result) :
    ∃ execution, result = .ok execution ∧ execution.response.errors = [] ∧
      execution.response.data = data := by
  obtain ⟨less, hless, hwithin⟩ := hr.trims depth data log h
  cases result with
  | error raised => cases hless
  | ok execution =>
    obtain ⟨rfl, rfl⟩ := Evaluation.done.inj hless
    have herrors := hwithin.errors
    rw [he, List.subperm_nil] at herrors
    exact ⟨execution, rfl, herrors, rfl⟩

/-- **Introspection is well typed.** The schema is built from the standard one, complete, and hides
no standard type; the registry holds nothing for the standard types and scalars, and introspection
is enabled. Then a query with valid selections, whose fields on the root are those of introspection,
comes to a response on every run. It has no errors, and its data conform to the type of the root: no
field is left out, and none is null unless its type admits it. -/
theorem introspection_well_typed (executor : Executor) (schema : Schema) (request : Request)
    (operation : Operation) (root : ObjectDef) (hbuilt : schema.Built) (hcomplete : schema.Complete)
    (hvisible : ∀ visible, schema.visibility = some visible → ∀ type ∈ Schema.standard.types,
      visible type (operation.withDefaults request.context) = true)
    (hregistry : executor.registry.KeepsStandard)
    (henabled : executor.config.introspection = true)
    (ho : request.document.operation? request.operationName = .ok operation)
    (hkind : operation.kind = .query)
    (hroot : schema.rootType (operation.withDefaults request.context) .query = .ok (.object root))
    (hacyclic : request.document.Acyclic)
    (hvalid : (executor.environment schema request operation).Valid (.object root)
      {selection | selection ∈ operation.selections})
    (hfields : ∀ node, (executor.environment schema request operation).Offers (.object root)
      {selection | selection ∈ operation.selections} node →
        node.name ∈ ["__schema", "__type", "__typename"]) :
    executor.Ends schema request ∧
      (∃ moves execution, executor.execute schema request moves = some (.ok execution)) ∧
      ∀ result, executor.Reaches schema request result → ∃ execution, result = .ok execution ∧
        execution.response.errors = [] ∧
        Conforms (executor.environment schema request operation) []
          (.nonNull (.resolved (.object root))) operation.selections []
          execution.response.data := by
  obtain ⟨name, hname, hv⟩ := Schema.rootType_ok hroot
  have hself : (executor.environment schema request operation).SelfDescribing := by
    refine ⟨⟨hcomplete, name, .object root, hname, hv⟩, ?_, hregistry, henabled⟩
    exact hbuilt.visibleType?_standard hvisible
  have hmember : .object root ∈ schema.types :=
    List.mem_of_find?_eq_some (Schema.type?_of_visible hv)
  have hreserved : ∀ name ∈ ["__schema", "__type", "__typename"], Schema.Reserved name := by decide
  -- the reference has no errors at any depth, and comes to a result at one that suffices
  obtain ⟨depth, hdepth⟩ := hacyclic.exists_shallow operation.selections
  have hclean := @Reference.select_clean _ hself (depth + 1)
    { path := [], type := .object root, value := request.root } root rfl operation.selections hvalid
    fun node hn definition hf =>
      absurd hf (hbuilt.field?_reserved hmember (hreserved _ (hfields node hn)) definition)
  obtain ⟨fields, log, hselect, hassembles, herrors⟩ :=
    hclean.finished (Reference.select_finished false hdepth)
  obtain ⟨data, hdata, hconforms⟩ := hassembles false
  have hexecute : Reference.execute executor schema request (depth + 1) = .done data log := by
    simp only [Reference.execute, ho, hkind, hroot]
    change (Reference.select (executor.environment schema request operation) _ _ _ false).map _ = _
    rw [hselect, map_done, hdata]
    rfl
  refine ⟨ends_of_done hexecute, ?_, fun result hr => ?_⟩
  · obtain ⟨moves, result, hresult⟩ := (ends_of_done hexecute).execute
    obtain ⟨execution, rfl, -⟩ := Reaches.of_clean hexecute herrors (execute_reaches hresult)
    exact ⟨moves, execution, hresult⟩
  · obtain ⟨execution, rfl, hclear, rfl⟩ := Reaches.of_clean hexecute herrors hr
    exact ⟨execution, rfl, hclear, hconforms⟩

end Executor

namespace Sample

/-- The query root of the vault. -/
def vaultQuery : ObjectDef where
  name := "Query"
  fields := [{ name := "secret", type := .late "Secret" }]

theorem vault_built : (vault none []).Built := by
  have hsteps : vault none [] =
      { ({ Schema.standard with queryType := some "Query" }.addType (.object vaultQuery)).addType
          (.object { name := "Secret" }) with
        visibility := some fun type _ => type.name ≠ "Secret" } := rfl
  rw [hsteps]
  refine .visibility (.addType (.addType (.queryType .standard _) ?_ ?_) ?_ ?_) _
  all_goals decide

theorem vault_complete : (vault none []).Complete where
  types type hm ref hr := by
    have hall : ∀ type ∈ (vault none []).types, ∀ ref ∈ type.refs,
        ((vault none []).type? ref.baseName).isSome = true := by decide
    exact .of_baseName (Option.isSome_iff_exists.mp (hall type hm ref hr))
  directives directive hm argument ha := by
    have hall : ∀ directive ∈ (vault none []).directives, ∀ argument ∈ directive.arguments,
        ((vault none []).type? argument.type.baseName).isSome = true := by decide
    exact .of_baseName (Option.isSome_iff_exists.mp (hall directive hm argument ha))

/-- What is asked of every type. -/
def outline : FragmentDef where
  name := "Outline"
  condition := "__Type"
  selections := [.field { name := "kind" }, .field { name := "name" }]

def fieldsOutline : FieldNode where
  name := "fields"
  selections := [.field { name := "type", selections := [.spread "Outline" []] }]

def queryOutline : FieldNode where
  name := "__type"
  arguments := [("name", .str "Query")]
  selections := [.spread "Outline" [], .field fieldsOutline]

/-- Asks for the outline of the query root and of the types of its fields. -/
def outlining : Operation where
  selections := [.field { name := "__typename" }, .field queryOutline]

def outlineRequest : Request where
  document := { operations := [outlining], fragments := [outline] }

def vaultEnvironment : Environment :=
  ({} : Executor).environment (vault none []) outlineRequest outlining

theorem known_outline : Selection.Known vaultEnvironment (.spread "Outline" []) := by
  have hf : vaultEnvironment.document.fragment? "Outline" = some outline := rfl
  have hc : vaultEnvironment.schema.visibleType? vaultEnvironment.context outline.condition =
      some (.object Introspection.typeType) := rfl
  refine .spread hf hc fun selection hm => ?_
  simp only [outline, List.mem_cons, List.not_mem_nil, or_false] at hm
  rcases hm with rfl | rfl <;> exact .field _

theorem offers_outline {type : TypeDef} {node : FieldNode}
    (h : Selection.Offers vaultEnvironment type (.spread "Outline" []) node) :
    node = { name := "kind" } ∨ node = { name := "name" } := by
  cases h with
  | @spread _ _ fragment selection _ hf _ hm h =>
    obtain rfl : outline = fragment := Option.some.inj hf
    simp only [outline, List.mem_cons, List.not_mem_nil, or_false] at hm
    rcases hm with rfl | rfl
    · cases h
      exact .inl rfl
    · cases h
      exact .inr rfl

theorem outline_valid : vaultEnvironment.Valid (.object Introspection.typeType)
    {selection | selection ∈ [.spread "Outline" []]} := by
  refine .of_distinct ?_ [{ name := "kind" }, { name := "name" }] ?_ (by decide) ?_
  · rintro selection hm
    obtain rfl := List.mem_singleton.mp hm
    exact known_outline
  · rintro node ⟨selection, hm, ho⟩
    obtain rfl := List.mem_singleton.mp hm
    rcases offers_outline ho with rfl | rfl <;> simp
  · rw [List.forall_mem_cons, List.forall_mem_singleton]
    exact ⟨⟨_, _, rfl, rfl, .nil _ _⟩, ⟨_, _, rfl, rfl, .nil _ _⟩⟩

theorem fieldsOutline_valid : vaultEnvironment.Valid (.object Introspection.fieldType)
    {selection | selection ∈ fieldsOutline.selections} := by
  refine Environment.Valid.of_fields [{ name := "type", selections := [.spread "Outline" []] }]
    (by decide) ?_
  rw [List.forall_mem_singleton]
  exact ⟨_, _, rfl, rfl, outline_valid⟩

theorem queryOutline_valid : vaultEnvironment.Valid (.object Introspection.typeType)
    {selection | selection ∈ queryOutline.selections} := by
  refine .of_distinct ?_ [{ name := "kind" }, { name := "name" }, fieldsOutline] ?_ (by decide) ?_
  · intro selection hm
    rcases List.mem_pair.mp hm with rfl | rfl
    · exact known_outline
    · exact .field _
  · rintro node ⟨selection, hm, ho⟩
    rcases List.mem_pair.mp hm with rfl | rfl
    · rcases offers_outline ho with rfl | rfl <;> simp
    · cases ho
      simp
  · simp only [List.forall_mem_cons]
    exact ⟨⟨_, _, rfl, rfl, .nil _ _⟩, ⟨_, _, rfl, rfl, .nil _ _⟩,
      ⟨_, _, rfl, rfl, fieldsOutline_valid⟩, fun _ hm => nomatch hm⟩

theorem outlining_valid : vaultEnvironment.Valid (.object vaultQuery)
    {selection | selection ∈ outlining.selections} := by
  refine Environment.Valid.of_fields [{ name := "__typename" }, queryOutline] (by decide) ?_
  rw [List.forall_mem_cons, List.forall_mem_singleton]
  exact ⟨⟨_, _, rfl, rfl, .nil _ _⟩, ⟨_, _, rfl, rfl, queryOutline_valid⟩⟩

theorem outlining_offers (node : FieldNode) (h : vaultEnvironment.Offers (.object vaultQuery)
    {selection | selection ∈ outlining.selections} node) :
    node.name ∈ ["__schema", "__type", "__typename"] := by
  obtain ⟨selection, hm, ho⟩ := h
  rcases List.mem_pair.mp hm with rfl | rfl
  · cases ho
    decide
  · cases ho
    decide

theorem vault_visible (visible : Visibility) (h : (vault none []).visibility = some visible)
    (context : Context) : ∀ type ∈ Schema.standard.types, visible type context = true := by
  obtain rfl := Option.some.inj h
  have hall : ∀ type ∈ Schema.standard.types, decide (type.name ≠ "Secret") = true := by decide
  exact hall

theorem outlineRequest_acyclic : outlineRequest.document.Acyclic := by
  refine Document.acyclic_of_rank (fun _ => 0) fun {first second} hspreads => ?_
  obtain ⟨fragment, hf, selection, hm, hmentions⟩ := hspreads
  rw [Document.fragment?, Named.find?] at hf
  have hfragment := List.mem_of_find?_eq_some hf
  obtain rfl := List.mem_singleton.mp hfragment
  rcases List.mem_pair.mp hm with rfl | rfl <;> cases hmentions with
  | field hi => cases hi

end Sample

namespace Executor

open Sample

/-- The theorem at a schema that hides the type of a field: the response tells of the field. -/
theorem outline_well_typed :
    ∃ execution, ({} : Executor).Reaches (vault none []) outlineRequest (.ok execution) ∧
      execution.response.errors = [] ∧
      Conforms vaultEnvironment [] (.nonNull (.resolved (.object vaultQuery))) outlining.selections
        [] execution.response.data := by
  obtain ⟨-, ⟨moves, execution, hexecute⟩, hall⟩ :=
    introspection_well_typed {} (vault none []) outlineRequest outlining vaultQuery vault_built
      vault_complete (fun visible hv => vault_visible visible hv _)
      ⟨fun _ _ _ _ => rfl, fun _ _ => rfl, fun _ _ => rfl⟩ rfl rfl rfl rfl outlineRequest_acyclic
      outlining_valid outlining_offers
  have hreaches := execute_reaches hexecute
  obtain ⟨other, hsame, herrors, hconforms⟩ := hall _ hreaches
  obtain rfl := Except.ok.inj hsame
  exact ⟨execution, hreaches, herrors, hconforms⟩

end Executor

end GraphQL
