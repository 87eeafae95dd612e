import GraphQL.Proofs.Likeness

/-!
# Veiled values

The raw value of an object decides as which type the object is executed, and it is what the
authorizer of that type is asked about. Nothing else is made of it: raw values that agree on both
cannot be told apart by a response. Two executors whose resolvers give one or the other do the same
work on the same tree, and only their histories differ.
-/

namespace GraphQL

open Reference

/-- The object type as which a value of a named type is executed. -/
def Environment.runtimeType? (env : Environment) (definition : TypeDef) (value : Json) :
    Option ObjectDef :=
  match definition with
  | .object object => some object
  | .union _ => env.schema.concreteType? env.context definition value
  | .interface _ => env.schema.concreteType? env.context definition value
  | _ => none

/-- Raw objects of a named type that have the same runtime type, and for which the authorizer of
that type has the same outcome. -/
inductive Environment.Veils (env : Environment) (definition : TypeDef) :
    FieldValue → FieldValue → Prop where
  | intro {type : ObjectDef} {raw other : Json} (hr : raw ≠ .null) (ho : other ≠ .null)
      (executed : env.runtimeType? definition raw = some type)
      (alike : env.runtimeType? definition other = some type)
      (exposed : env.registry.authorize type raw env.context =
        env.registry.authorize type other env.context) :
      Environment.Veils env definition (.value raw) (.value other)

/-- Settled values of a declared type that are equal but for veiled objects. -/
def FieldValue.Veiled (env : Environment) : TypeRef → FieldValue → FieldValue → Prop
  | .nonNull inner, given, other => Veiled env inner given other
  | .list item, given, other => given = other ∨
      (∃ items others, given = .list items ∧ other = .list others ∧
        List.Forall₂ (Resolution.Paired (Veiled env item)) items others) ∨
      ∃ raws others, given = .value (.arr raws) ∧ other = .value (.arr others) ∧
        List.Forall₂ (fun raw other => Veiled env item (.value raw) (.value other)) raws others
  | .resolved definition, given, other => given = other ∨ env.Veils definition given other
  | .late name, given, other => given = other ∨ ∃ definition,
      env.schema.visibleType? env.context name = some definition ∧ env.Veils definition given other

/-- Replies with the same reports and the same stages, whose values are equal but for veiled
objects. -/
structure Reply.Veiled (env : Environment) (type : TypeRef) (reply other : Reply) : Prop where
  reports : reply.reports = other.reports
  resolution : Resolution.Paired (FieldValue.Veiled env type) reply.resolution other.resolution

theorem FieldValue.Veiled.refl {env : Environment} (type : TypeRef) (value : FieldValue) :
    FieldValue.Veiled env type value value := by
  induction type with
  | nonNull inner ih => exact ih
  | list item _ => exact .inl rfl
  | resolved definition => exact .inl rfl
  | late name => exact .inl rfl

section Shaping

variable {env : Environment} {site : Site}

theorem Site.route_value {value : Json} (h : value ≠ .null) :
    site.route (.value value) = .content (.value value) := by
  cases value <;> first | rfl | exact absurd rfl h

theorem Site.route_veils {definition : TypeDef} {value other : FieldValue}
    (h : value = other ∨ env.Veils definition value other) {S : Content → Content → Prop}
    (hs : ∀ content, S content content)
    (hv : ∀ {content other}, env.Veils definition content.given other.given → S content other) :
    (site.route value).Related S (site.route other) := by
  rcases h with rfl | h
  · exact .refl hs _
  · cases h with
    | intro hr ho executed alike exposed =>
      rw [route_value hr, route_value ho]
      exact .content (hv (.intro hr ho executed alike exposed))

/-- Values are routed alike if they are equal but for veiled objects. -/
theorem Site.route_veiled {type : TypeRef} {value other : FieldValue}
    (h : FieldValue.Veiled env type value other) :
    (site.route value).Related (Content.Like (FieldValue.Veiled env) type) (site.route other) := by
  have hrefl : ∀ content, Content.Like (FieldValue.Veiled env) type content content :=
    fun _ => .refl type _
  induction type with
  | nonNull inner ih => exact ih h hrefl
  | list item _ =>
    rcases h with rfl | ⟨items, others, rfl, rfl, each⟩ | ⟨values, others, rfl, rfl, each⟩
    · exact .refl hrefl _
    · exact .content (.inr (.inl ⟨items, others, rfl, rfl, each⟩))
    · exact .content (.inr (.inr ⟨values, others, rfl, rfl, each⟩))
  | resolved definition => exact route_veils h hrefl fun hv => .inr hv
  | late name =>
    rcases h with rfl | ⟨definition, hd, h⟩
    · exact .refl hrefl _
    · exact route_veils (.inr h) hrefl fun hv => .inr ⟨definition, hd, hv⟩

namespace Shaped

variable {registry : Registry} (hscalars : registry.scalars = env.registry.scalars)
variable {content other : Content}

include hscalars

theorem ofNamed_veiled {definition : TypeDef}
    (h : content.given = other.given ∨ env.Veils definition content.given other.given) :
    Shaped.Like (FieldValue.Veiled env) env (ofNamed env site content definition)
      (ofNamed { env with registry } site other definition) := by
  rw [ofNamed_withRegistry hscalars]
  rcases h with h | h
  · rw [Content.given_inj h]
    exact .refl FieldValue.Veiled.refl env _
  · cases content with
    | items items => cases h
    | value raw =>
      cases other with
      | items items => cases h
      | value other =>
        cases h with
        | intro hr ho executed alike exposed =>
          cases definition with
          | object object =>
            obtain rfl := Option.some.inj executed
            exact .object object exposed
          | union union =>
            have hraw : env.schema.concreteType? env.context (.union union) raw = some _ := executed
            have hother : env.schema.concreteType? env.context (.union union) other = some _ :=
              alike
            simp only [ofNamed, ofAbstract, hraw, hother]
            exact .object _ exposed
          | interface interface =>
            have hraw : env.schema.concreteType? env.context (.interface interface) raw = some _ :=
              executed
            have hother : env.schema.concreteType? env.context (.interface interface) other =
              some _ := alike
            simp only [ofNamed, ofAbstract, hraw, hother]
            exact .object _ exposed
          | scalar | enum | inputObject => cases executed

/-- Contents have the same shape but for veiled objects if they are equal but for these. -/
theorem of_veiled {type : TypeRef} (h : Content.Like (FieldValue.Veiled env) type content other) :
    Shaped.Like (FieldValue.Veiled env) env (of env site content type)
      (of { env with registry } site other type) := by
  induction type with
  | nonNull inner ih => exact ih h
  | list item _ =>
    rw [of, of]
    rcases h with h | ⟨items, others, hi, ho, each⟩ | ⟨values, others, hi, ho, each⟩
    · rw [Content.given_inj h]
      cases Completion.items? other with
      | none => exact .null _
      | some items =>
        exact .list item (List.forall₂_same.mpr fun resolution _ => .refl (.refl item) resolution)
    · cases content with
      | value raw => cases hi
      | items found =>
        cases other with
        | value raw => cases ho
        | items found' =>
          obtain rfl := FieldValue.list.inj hi
          obtain rfl := FieldValue.list.inj ho
          exact .list item each
    · cases content with
      | items found => cases hi
      | value raw =>
        cases other with
        | items found => cases ho
        | value raw' =>
          obtain rfl := FieldValue.value.inj hi
          obtain rfl := FieldValue.value.inj ho
          exact .list item (List.rel_map (fun _ _ hv => .ready hv) each)
  | resolved definition => exact ofNamed_veiled hscalars h
  | late name =>
    rw [of, of]
    dsimp only
    cases hd : env.schema.visibleType? env.context name with
    | none => exact .fault _
    | some definition =>
      refine ofNamed_veiled hscalars (h.imp id fun hv => ?_)
      obtain ⟨found, hf, hv⟩ := hv
      obtain rfl := Option.some.inj (hd.symm.trans hf)
      exact hv

end Shaped

end Shaping

/-- Another registry answers the fields that occur as the registry of the environment does, but for
veiled objects. Its authorizers and scalars are the same. -/
structure Registry.Veils (env : Environment) (root : ObjectFrame) (top : List Selection)
    (registry : Registry) : Prop where
  authorizers : registry.authorizers = env.registry.authorizers
  scalars : registry.scalars = env.registry.scalars
  answers : ∀ frame group found type, Occurs env root top (.field frame group) →
    lookup env frame group = .ok (found, type) →
      (answer env frame group found type).1.Veiled env type
        (answer { env with registry } frame group found type).1

/-- Veiled objects are alike. -/
theorem Registry.Veils.likens {env : Environment} {root : ObjectFrame} {top : List Selection}
    {registry : Registry} (h : registry.Veils env root top) :
    registry.Likens (FieldValue.Veiled env) env root top where
  authorizers := h.authorizers
  answers frame group found type ho hl :=
    have hanswer := h.answers frame group found type ho hl
    ⟨hanswer.reports, hanswer.resolution⟩
  route _ _ _ hv := Site.route_veiled hv
  shape _ _ _ hv := Shaped.of_veiled h.scalars hv

namespace Executor

/-- Executors whose resolvers, as far as a request calls them, give the same values but for veiled
objects, and that differ in nothing else. -/
structure Veils (a b : Executor) (schema : Schema) (request : Request) : Prop where
  config : b.config = a.config
  registry : ∀ operation rootType,
    request.document.operation? request.operationName = .ok operation →
    schema.rootType (operation.withDefaults request.context) operation.kind = .ok rootType →
      b.registry.Veils (a.environment schema request operation)
        { path := [], type := rootType, value := request.root } operation.selections

variable {a b : Executor} {schema : Schema} {request : Request}

/-- Executors that differ in veiled objects only have the same responses, by their own choices and
whoever chooses the moves. -/
theorem Veils.responses (h : a.Veils b schema request) :
    (∀ moves, (a.execute schema request moves).map (Except.map Execution.response) =
        (b.execute schema request moves).map (Except.map Execution.response)) ∧
      ∀ response, (∃ result, a.Reaches schema request result ∧
          result.map Execution.response = response) ↔
        ∃ result, b.Reaches schema request result ∧ result.map Execution.response = response :=
  Likens.sameResponses ⟨h.config, fun operation rootType ho ht =>
    ⟨_, (h.registry operation rootType ho ht).likens⟩⟩

end Executor

end GraphQL
