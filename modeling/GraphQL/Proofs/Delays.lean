import GraphQL.Proofs.Reference

/-!
# Delays

Values, resolvers and requests that differ in nothing but when deferred values settle. A value may
be ready on one side and deferred on the other; the errors that are reported on the way to it are
the same, be they reported at once or later. The reference semantics does not tell such requests apart,
and comes to the same at every depth that suffices.
-/

namespace GraphQL

mutual

/-- The same settled value, but for the delays of the elements of lists. -/
inductive FieldValue.Retimed : FieldValue → FieldValue → Prop where
  | value (value : Json) : FieldValue.Retimed (.value value) (.value value)
  | list {items others : List Resolution} (each : List.Forall₂ Resolution.Retimed items others) :
      FieldValue.Retimed (.list items) (.list others)
  | error (error : ResponseError) : FieldValue.Retimed (.error error) (.error error)
  | errors (errors : List ResponseError) : FieldValue.Retimed (.errors errors) (.errors errors)
  | skip : FieldValue.Retimed .skip .skip

/-- The same value, be it settled at once or later. -/
inductive Resolution.Retimed : Resolution → Resolution → Prop where
  | intro {a b : Resolution} (reports : a.reports.Perm b.reports)
      (settled : FieldValue.Retimed a.settled b.settled) : Resolution.Retimed a b

end

mutual

theorem FieldValue.Retimed.refl : ∀ value : FieldValue, FieldValue.Retimed value value
  | .value value => .value value
  | .list items => .list (Resolution.retimed_all items)
  | .error error => .error error
  | .errors errors => .errors errors
  | .skip => .skip

theorem Resolution.Retimed.refl :
    ∀ resolution : Resolution, Resolution.Retimed resolution resolution
  | .ready value => .intro (.refl _) (FieldValue.Retimed.refl value)
  | .deferred _ value => .intro (.refl _) (FieldValue.Retimed.refl value)

theorem Resolution.retimed_all : ∀ items : List Resolution,
    List.Forall₂ Resolution.Retimed items items
  | [] => .nil
  | item :: rest => .cons (Resolution.Retimed.refl item) (Resolution.retimed_all rest)

end

/-- The same errors, reported at once or later, and the same value. -/
structure Reply.Retimed (a b : Reply) : Prop where
  reports : (a.reports ++ a.resolution.reports).Perm (b.reports ++ b.resolution.reports)
  settled : FieldValue.Retimed a.resolution.settled b.resolution.settled

def Resolver.Retimed (a b : Resolver) : Prop :=
  ∀ parent args context info,
    (a.resolve parent args context info).Retimed (b.resolve parent args context info)

def Authorizer.Retimed (a b : Authorizer) : Prop :=
  ∀ type value context,
    FieldValue.Retimed (a type value context).settled (b type value context).settled

structure Registry.Retimed (a b : Registry) : Prop where
  resolvers : ∀ typeName fieldName,
    Option.Rel (fun a b => Resolver.Retimed a.1 b.1) (a.resolver? typeName fieldName)
      (b.resolver? typeName fieldName)
  authorizers : ∀ typeName,
    Option.Rel Authorizer.Retimed (a.authorizer? typeName) (b.authorizer? typeName)
  scalars : a.scalars = b.scalars

/-- Environments that differ in delays and in settings other than `introspection`. -/
structure Environment.Retimed (a b : Environment) : Prop where
  schema : a.schema = b.schema
  document : a.document = b.document
  context : a.context = b.context
  registry : a.registry.Retimed b.registry
  introspection : a.config.introspection = b.config.introspection

theorem Reply.Retimed.refl (reply : Reply) : reply.Retimed reply := ⟨.refl _, .refl _⟩

theorem Registry.Retimed.refl (registry : Registry) : registry.Retimed registry where
  resolvers typeName fieldName := by
    cases registry.resolver? typeName fieldName with
    | none => exact .none
    | some entry => exact .some fun _ _ _ _ => .refl _
  authorizers typeName := by
    cases registry.authorizer? typeName with
    | none => exact .none
    | some authorizer => exact .some fun _ _ _ => .refl _
  scalars := rfl

/-- Registries of resolvers that differ in delays. -/
theorem Registry.Retimed.of_resolvers {resolvers others : Members Resolver}
    (h : List.Forall₂ (fun a b => a.1 = b.1 ∧ Resolver.Retimed a.2 b.2) resolvers others) :
    Registry.Retimed { resolvers } { resolvers := others } where
  resolvers typeName fieldName := by
    have hget : Option.Rel Resolver.Retimed
        (Members.get? (fieldKey typeName fieldName) resolvers)
        (Members.get? (fieldKey typeName fieldName) others) := by
      induction h with
      | nil => exact .none
      | @cons entry other rest others hentry _ ih =>
        obtain ⟨key, resolver⟩ := entry
        obtain ⟨rfl, hresolver⟩ := hentry
        simp only [Members.get?]
        split
        · exact .some hresolver
        · exact ih
    unfold resolver?
    dsimp only
    generalize Members.get? (fieldKey typeName fieldName) resolvers = x at hget
    generalize Members.get? (fieldKey typeName fieldName) others = y at hget
    cases hget with
    | none => exact .none
    | some hresolver => exact .some hresolver
  authorizers typeName := .none
  scalars := rfl

theorem Environment.Retimed.refl (env : Environment) : env.Retimed env :=
  ⟨rfl, rfl, rfl, .refl _, rfl⟩

/-- The same content, but for the delays of the elements of a list. -/
inductive Content.Retimed : Content → Content → Prop where
  | value (value : Json) : Content.Retimed (.value value) (.value value)
  | items {items others : List Resolution} (each : List.Forall₂ Resolution.Retimed items others) :
      Content.Retimed (.items items) (.items others)

theorem Content.Retimed.refl (content : Content) : content.Retimed content := by
  cases content with
  | value value => exact .value value
  | items items => exact .items (Resolution.retimed_all items)

theorem Content.Retimed.items? {a b : Content} (h : a.Retimed b) :
    Option.Rel (List.Forall₂ Resolution.Retimed) (Completion.items? a) (Completion.items? b) := by
  cases h with
  | value value =>
    cases value with
    | arr values => exact .some (Resolution.retimed_all _)
    | _ => exact .none
  | items each => exact .some each

theorem Registry.Retimed.authorize {a b : Registry} (h : a.Retimed b) (type : ObjectDef)
    (value : Json) (context : Context) :
    FieldValue.Retimed (a.authorize type value context).settled
      (b.authorize type value context).settled := by
  have ha := h.authorizers type.name
  unfold Registry.authorize
  generalize a.authorizer? type.name = x at ha
  generalize b.authorizer? type.name = y at ha
  cases ha with
  | none => exact .refl _
  | some ha => exact ha type value context

namespace Reference

open Evaluation

variable {env env' : Environment}

theorem collected_perm (collector : Option ErrorCollector) {errors others : List ResponseError}
    (h : errors.Perm others) : (collected collector errors).Perm (collected collector others) := by
  cases collector with
  | none => exact .refl _
  | some collector => exact h.map _

theorem routed_settles (site : Site) {value other : FieldValue} (h : FieldValue.Retimed value other)
    {next next' : Content → Evaluation Completed}
    (hn : ∀ content content', Content.Retimed content content' →
      (next content).Settles Eq (next' content')) :
    (routed site value next).Settles Eq (routed site other next') := by
  cases h with
  | value value =>
    cases value with
    | null => exact .refl _
    | _ => exact hn _ _ (.value _)
  | list each => exact hn _ _ (.items each)
  | error error => exact .refl _
  | errors errors =>
    cases errors with
    | nil => exact hn _ _ (.value _)
    | cons error rest => exact .refl _
  | skip => exact .refl _

section Complete

variable {fields fields' : ObjectFrame → List Selection → Evaluation (List (String × Completed))}

theorem named_settles (he : env.Retimed env')
    (hf : ∀ frame selections, (fields frame selections).Settles Eq (fields' frame selections))
    (site : Site) (type : TypeDef) {content content' : Content} (hc : content.Retimed content') :
    (named env fields site type content).Settles Eq (named env' fields' site type content') := by
  have hobject : ∀ type : ObjectDef, ∀ {content content' : Content}, content.Retimed content' →
      (object env fields site type content).Settles Eq
        (object env' fields' site type content') := by
    intro type content content' hc
    cases hc with
    | items each => exact .refl _
    | value value =>
      rw [object, object, he.context]
      refine routed_settles site (he.registry.authorize type value _) fun content content' hc => ?_
      cases hc with
      | items each => exact .refl _
      | value value => exact (hf _ _).map fun _ _ h => by rw [h]
  have habstract : (abstract env fields site type content).Settles Eq
      (abstract env' fields' site type content') := by
    cases hc with
    | items each => exact .refl _
    | value value =>
      simp only [abstract, he.context, he.schema]
      cases env'.schema.concreteType? env'.context type value with
      | none => exact .refl _
      | some concrete => exact hobject concrete (.value value)
  have hleaf : ∀ type : Leaf.LeafDef, (leaf env site type content).Settles Eq
      (leaf env' site type content') := by
    intro type
    cases hc with
    | items each => exact .refl _
    | value value =>
      rw [leaf, leaf, he.registry.scalars]
      exact .refl _
  cases type with
  | scalar definition => exact hleaf _
  | enum definition => exact hleaf _
  | union definition => exact habstract
  | interface definition => exact habstract
  | object definition => exact hobject definition hc
  | inputObject definition => exact .refl _

theorem settled_settles (site : Site) {resolution other : Resolution}
    (h : Resolution.Retimed resolution other) {next next' : Content → Evaluation Completed}
    (hn : ∀ content content', Content.Retimed content content' →
      (next content).Settles Eq (next' content')) :
    (settled site resolution next).Settles Eq (settled site other next') := by
  obtain ⟨hreports, hsettled⟩ := h
  exact (routed_settles site hsettled hn).after ⟨collected_perm _ hreports, .refl _⟩

theorem complete_settles (he : env.Retimed env')
    (hf : ∀ frame selections, (fields frame selections).Settles Eq (fields' frame selections))
    (type : TypeRef) (site : Site) {content content' : Content} (hc : content.Retimed content') :
    (complete env fields type site content).Settles Eq
      (complete env' fields' type site content') := by
  induction type generalizing site content content' with
  | nonNull inner ih => exact ih site hc
  | list item ih =>
    simp only [complete]
    have hitems := hc.items?
    generalize Completion.items? content = x at hitems
    generalize Completion.items? content' = y at hitems
    cases hitems with
    | none => exact .refl _
    | @some items others each =>
      have hsites : ∀ sites : List Site, List.Forall₂ (Settles Eq)
          ((sites.zip items).map fun element =>
            settled element.1 element.2 (complete env fields item element.1))
          ((sites.zip others).map fun element =>
            settled element.1 element.2 (complete env' fields' item element.1)) := by
        induction each with
        | nil => intro sites; simp
        | cons h _ ihs =>
          intro sites
          cases sites with
          | nil => exact .nil
          | cons first sites =>
            exact .cons (settled_settles first h fun _ _ hc => ih first hc) (ihs sites)
      dsimp only
      rw [← each.length_eq]
      exact (settles_all (hsites _)).map fun a b h => congrArg _ (List.forall₂_eq_eq_eq ▸ h)
  | resolved definition => exact named_settles he hf site definition hc
  | late name =>
    simp only [complete, he.schema, he.context]
    cases env'.schema.visibleType? env'.context name with
    | none => exact .refl _
    | some definition => exact named_settles he hf site definition hc

theorem field_settles (he : env.Retimed env')
    (hf : ∀ frame selections, (fields frame selections).Settles Eq (fields' frame selections))
    {prepared other : Site × Reply} (hs : prepared.1 = other.1) (hr : prepared.2.Retimed other.2) :
    (field env fields prepared).Settles Eq (field env' fields' other) := by
  obtain ⟨site, reply⟩ := prepared
  obtain ⟨_, other⟩ := other
  obtain rfl : site = _ := hs
  have hrouted := routed_settles site hr.settled fun _ _ hc =>
    complete_settles he hf site.type site hc
  simp only [field, settled, after_after]
  refine hrouted.after ⟨?_, .refl _⟩
  have hperm := collected_perm site.field.collector hr.reports
  cases hc : site.field.collector with
  | none => exact .refl _
  | some collector => simpa [collected, hc] using hperm

end Complete

theorem lookup_retimed (he : env.Retimed env') (frame : ObjectFrame) (group : FieldGroup) :
    lookup env frame group = lookup env' frame group := by
  simp only [lookup, he.schema, he.context]

theorem arguments_retimed (he : env.Retimed env') (frame : ObjectFrame) (group : FieldGroup)
    (found : FieldLookup) : arguments env frame group found = arguments env' frame group found := by
  simp only [arguments, Preparation.arguments, he.context]

theorem site_retimed (he : env.Retimed env') (frame : ObjectFrame) (group : FieldGroup)
    (found : FieldLookup) (type : TypeRef) :
    site env frame group found type = site env' frame group found type := by
  simp only [site, arguments_retimed he]

/-- A field is answered with the same value and by the same calls. -/
theorem answer_retimed (he : env.Retimed env') (frame : ObjectFrame) (group : FieldGroup)
    (found : FieldLookup) (type : TypeRef) :
    (answer env frame group found type).1.Retimed (answer env' frame group found type).1 ∧
      (answer env frame group found type).2 = (answer env' frame group found type).2 := by
  cases found with
  | introspection field =>
    rw [answer, answer, arguments_retimed he, he.schema, he.context, he.introspection]
    exact ⟨.refl _, rfl⟩
  | ordinary definition =>
    have hr := he.registry.resolvers frame.type.name group.node.name
    simp only [answer, arguments_retimed he, he.schema, he.context]
    generalize env.registry.resolver? frame.type.name group.node.name = x at hr
    generalize env'.registry.resolver? frame.type.name group.node.name = y at hr
    cases hr with
    | none => exact ⟨.refl _, rfl⟩
    | some h => exact ⟨h _ _ _ _, rfl⟩

theorem prepare_agrees (he : env.Retimed env') (frame : ObjectFrame) (group : FieldGroup) :
    (prepare env frame group).Agrees (fun a b => a.1 = b.1 ∧ a.2.Retimed b.2)
      (prepare env' frame group) := by
  rw [prepare, prepare, lookup_retimed he]
  cases lookup env' frame group with
  | error raised => exact .fault _
  | ok entry =>
    obtain ⟨found, type⟩ := entry
    have hanswer := answer_retimed he frame group found type
    exact .done ⟨site_retimed he frame group found type, hanswer.1⟩ (by rw [hanswer.2]; exact .refl _)

theorem completeAll_settles (he : env.Retimed env') (frame : ObjectFrame)
    (groups : List FieldGroup) (serial : Bool)
    {complete complete' : Site × Reply → Evaluation Completed}
    (hc : ∀ prepared other, prepared.1 = other.1 → prepared.2.Retimed other.2 →
      (complete prepared).Settles Eq (complete' other)) :
    (completeAll env frame groups serial complete).Settles Eq
      (completeAll env' frame groups serial complete') := by
  have hsame : ∀ {x y : Evaluation (List Completed)}, x.Settles (List.Forall₂ Eq) y →
      x.Settles Eq y := by
    intro x y h
    rwa [List.forall₂_eq_eq_eq] at h
  cases serial with
  | true =>
    refine hsame (settles_all ?_)
    simp only [List.forall₂_map_left_iff, List.forall₂_map_right_iff, List.forall₂_same]
    exact fun group _ => (prepare_agrees he frame group).settles.bind fun _ _ h => hc _ _ h.1 h.2
  | false =>
    have hprepare : List.Forall₂ (Agrees fun a b => a.1 = b.1 ∧ a.2.Retimed b.2)
        (groups.map (prepare env frame)) (groups.map (prepare env' frame)) := by
      simp [prepare_agrees he frame]
    refine (agrees_all hprepare).settles.bind fun prepared others h => hsame (settles_all ?_)
    simp only [List.forall₂_map_left_iff, List.forall₂_map_right_iff]
    exact h.imp fun _ _ h => hc _ _ h.1 h.2

/-- Where the reference has finished it stays the same at every greater depth, and whatever the
delays are. -/
theorem select_settles (he : env.Retimed env') {depth more : Nat} (hd : depth ≤ more)
    (frame : ObjectFrame) (selections : List Selection) (serial : Bool) :
    (select env depth frame selections serial).Settles Eq
      (select env' more frame selections serial) := by
  induction depth generalizing more frame selections serial with
  | zero => exact unfinished_settles _
  | succ depth ih =>
    obtain ⟨more, rfl⟩ : ∃ less, more = less + 1 := ⟨more - 1, by omega⟩
    have hfields := fun frame selections => ih (Nat.le_of_succ_le_succ hd) frame selections false
    simp only [select, he.schema, he.document, he.context]
    cases Gathering.collect env'.schema env'.document env'.context frame.type selections with
    | error raised => exact .refl _
    | ok groups =>
      have hall := completeAll_settles he frame groups serial fun _ _ hs hr =>
        field_settles he hfields hs hr
      exact hall.map fun _ _ h => congrArg _ h

end Reference

end GraphQL
