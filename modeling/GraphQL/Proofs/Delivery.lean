import GraphQL.Proofs.Likeness

/-!
# Two ways to deliver a list

A list is delivered as values that settle on their own or as a JSON array, and an empty list of
errors is an empty list. Where a list is declared it does not matter which: the elements are the
same, and so are the responses. Nor does it matter where the type is abstract and no object type is
found for the array, since either ends in the same error. Where an object is declared the two are
told apart: a list of separately settling values is refused with one error, but an array is taken
for the raw value of an object like any other value.
-/

namespace GraphQL

open Reference

/-- A list as it goes on to be completed; nothing for any other value. -/
def FieldValue.listing? : FieldValue → Option Content
  | .list items => some (.items items)
  | .value (.arr raws) => some (.value (.arr raws))
  | .errors [] => some (.value (.arr []))
  | _ => none

/-- The elements of a list, in whichever way it is delivered. -/
def FieldValue.elements? (value : FieldValue) : Option (List Resolution) :=
  value.listing?.bind Completion.items?

namespace Environment

/-- A list for which no object type is found where a value of a named type is declared. -/
def LeavesUnresolved (env : Environment) (definition : TypeDef) (value : FieldValue) : Prop :=
  ∃ content, value.listing? = some content ∧ ∀ raw, content = .value raw →
    env.schema.concreteType? env.context definition raw = none

/-- Lists that are delivered where a value of an abstract type is declared, and for which no object
type is found. -/
structure BothUnresolved (env : Environment) (definition : TypeDef) (given other : FieldValue) :
    Prop where
  isAbstract : definition.isAbstract = true
  given : env.LeavesUnresolved definition given
  other : env.LeavesUnresolved definition other

end Environment

/-- Settled values of a declared type that are equal but for the ways in which lists are delivered:
lists where a list is declared, with such elements, and lists that are left unresolved where the
type is abstract. -/
def FieldValue.SameLists (env : Environment) : Likeness
  | .nonNull inner, given, other => SameLists env inner given other
  | .list item, given, other => given = other ∨ ∃ items others,
      given.elements? = some items ∧ other.elements? = some others ∧
        List.Forall₂ (Resolution.Paired (SameLists env item)) items others
  | .resolved definition, given, other => given = other ∨ env.BothUnresolved definition given other
  | .late name, given, other => given = other ∨ ∃ definition,
      env.schema.visibleType? env.context name = some definition ∧
        env.BothUnresolved definition given other

theorem FieldValue.SameLists.refl {env : Environment} (type : TypeRef) (value : FieldValue) :
    FieldValue.SameLists env type value value := by
  induction type with
  | nonNull inner ih => exact ih
  | list item _ => exact .inl rfl
  | resolved definition => exact .inl rfl
  | late name => exact .inl rfl

/-- The two ways to deliver a list of plain values. -/
theorem FieldValue.sameLists_ready {env : Environment} (item : TypeRef) (raws : List Json) :
    FieldValue.SameLists env (.list item) (.list (raws.map fun raw => .ready (.value raw)))
      (.value (.arr raws)) :=
  .inr ⟨_, _, rfl, rfl, List.forall₂_same.mpr fun resolution _ => .refl (.refl item) resolution⟩

section Shaping

variable {env : Environment} {site : Site} {value given : FieldValue} {content other : Content}

/-- A list goes on to be completed, whatever is declared. -/
theorem Site.route_listing (h : value.listing? = some content) :
    site.route value = .content content := by
  unfold FieldValue.listing? at h
  split at h
  · exact Option.some.inj h ▸ rfl
  · exact Option.some.inj h ▸ rfl
  · exact Option.some.inj h ▸ rfl
  · cases h

theorem FieldValue.listing?_given (h : value.listing? = some content) :
    content.given.listing? = some content := by
  unfold listing? at h
  split at h
  · exact Option.some.inj h ▸ rfl
  · exact Option.some.inj h ▸ rfl
  · exact Option.some.inj h ▸ rfl
  · cases h

theorem Content.eq_of_listing? (h : content.given.listing? = some other) : other = content := by
  cases content with
  | items items => exact (Option.some.inj h).symm
  | value raw =>
    cases raw with
    | arr raws => exact (Option.some.inj h).symm
    | _ => cases h

theorem Content.elements?_given (content : Content) :
    content.given.elements? = Completion.items? content := by
  cases content with
  | items items => rfl
  | value raw => cases raw <;> rfl

/-- Values are routed alike if they are equal but for the ways in which lists are delivered. -/
theorem Site.route_sameLists {type : TypeRef} (h : FieldValue.SameLists env type value given) :
    (site.route value).Related (Content.Like (FieldValue.SameLists env) type)
      (site.route given) := by
  have hrefl : ∀ content, Content.Like (FieldValue.SameLists env) type content content :=
    fun _ => .refl type _
  have hnamed : ∀ definition, value = given ∨ env.BothUnresolved definition value given →
      (∀ {content other : Content}, env.BothUnresolved definition content.given other.given →
        Content.Like (FieldValue.SameLists env) type content other) →
      (site.route value).Related (Content.Like (FieldValue.SameLists env) type)
        (site.route given) := by
    rintro definition (rfl | ⟨habstract, ⟨content, hc, hnone⟩, ⟨other, ho, hnone'⟩⟩) hboth
    · exact .refl hrefl _
    · rw [route_listing hc, route_listing ho]
      exact .content (hboth ⟨habstract, ⟨content, FieldValue.listing?_given hc, hnone⟩,
        ⟨other, FieldValue.listing?_given ho, hnone'⟩⟩)
  induction type with
  | nonNull inner ih => exact ih h hrefl hnamed
  | list item _ =>
    rcases h with rfl | ⟨items, others, hi, ho, each⟩
    · exact .refl hrefl _
    · obtain ⟨content, hc, hitems⟩ := Option.bind_eq_some_iff.mp hi
      obtain ⟨other, ho, hothers⟩ := Option.bind_eq_some_iff.mp ho
      rw [route_listing hc, route_listing ho]
      refine .content (.inr ⟨items, others, ?_, ?_, each⟩)
      · rw [Content.elements?_given, hitems]
      · rw [Content.elements?_given, hothers]
  | resolved definition => exact hnamed definition h .inr
  | late name =>
    rcases h with h | ⟨definition, hd, h⟩
    · exact hnamed (.scalar { name }) (.inl h) fun hb => nomatch hb.isAbstract
    · exact hnamed definition (.inr h) fun hb => .inr ⟨definition, hd, hb⟩

namespace Shaped

/-- A list for which no object type is found ends with an error. -/
theorem ofNamed_unresolved {definition : TypeDef} (ha : definition.isAbstract = true)
    (h : env.LeavesUnresolved definition content.given) :
    ofNamed env site content definition =
      .null [site.failure (.unresolvedType definition.name)] := by
  obtain ⟨found, hfound, hnone⟩ := h
  have hnarrowed : ofAbstract env site definition content =
      .null [site.failure (.unresolvedType definition.name)] := by
    cases content with
    | items items => rfl
    | value raw => simp only [ofAbstract, hnone raw (Content.eq_of_listing? hfound)]
  cases definition with
  | union _ => exact hnarrowed
  | interface _ => exact hnarrowed
  | scalar _ | object _ | enum _ | inputObject _ => cases ha

variable {registry : Registry} (hscalars : registry.scalars = env.registry.scalars)

include hscalars

theorem ofNamed_sameLists {definition : TypeDef}
    (h : content.given = other.given ∨ env.BothUnresolved definition content.given other.given) :
    Shaped.Like (FieldValue.SameLists env) env (ofNamed env site content definition)
      (ofNamed { env with registry } site other definition) := by
  rw [ofNamed_withRegistry hscalars]
  rcases h with h | ⟨habstract, hgiven, hother⟩
  · rw [Content.given_inj h]
    exact .refl FieldValue.SameLists.refl env _
  · rw [ofNamed_unresolved habstract hgiven, ofNamed_unresolved habstract hother]
    exact .null _

/-- Contents have the same shape if they are equal but for the ways in which lists are
delivered. -/
theorem of_sameLists {type : TypeRef}
    (h : Content.Like (FieldValue.SameLists env) type content other) :
    Shaped.Like (FieldValue.SameLists env) env (of env site content type)
      (of { env with registry } site other type) := by
  induction type with
  | nonNull inner ih => exact ih h
  | list item _ =>
    rw [of, of]
    rcases h with h | ⟨items, others, hi, ho, each⟩
    · rw [Content.given_inj h]
      cases Completion.items? other with
      | none => exact .null _
      | some items =>
        exact .list item (List.forall₂_same.mpr fun resolution _ => .refl (.refl item) resolution)
    · rw [Content.elements?_given] at hi ho
      rw [hi, ho]
      exact .list item each
  | resolved definition => exact ofNamed_sameLists hscalars h
  | late name =>
    rw [of, of]
    dsimp only
    cases hd : env.schema.visibleType? env.context name with
    | none => exact .fault _
    | some definition =>
      refine ofNamed_sameLists hscalars (h.imp id fun hb => ?_)
      obtain ⟨found, hf, hb⟩ := hb
      obtain rfl := Option.some.inj (hd.symm.trans hf)
      exact hb

end Shaped

end Shaping

section Refusing

variable (env : Environment)

/-- The error with which a list of separately settling values ends where a value of an object type
or of an abstract type is declared. -/
def TypeDefOf.refusal? : TypeDef → Option CompletionError
  | .object _ => some .listForObject
  | .union definition => some (.unresolvedType definition.name)
  | .interface definition => some (.unresolvedType definition.name)
  | _ => none

/-- The error with which such a list ends by the declared type of its position, under any wrappers
that do not admit null. -/
def Environment.refusal? : TypeRef → Option CompletionError
  | .nonNull inner => refusal? inner
  | .list _ => none
  | .resolved definition => definition.refusal?
  | .late name => (env.schema.visibleType? env.context name).bind TypeDefOf.refusal?

variable {env}

theorem Completion.completeAt_items (site : Site) {definition : TypeDef} {error : CompletionError}
    (h : definition.refusal? = some error) (items : List Resolution) (state : State) :
    completeAt env site definition (.items items) state = (.done, state.fail site error) := by
  cases definition with
  | object _ => exact Option.some.inj h ▸ rfl
  | union _ => exact Option.some.inj h ▸ rfl
  | interface _ => exact Option.some.inj h ▸ rfl
  | scalar _ | enum _ | inputObject _ => cases h

/-- A list of separately settling values ends with one error where it is refused, and leaves
nothing to do. -/
theorem Completion.complete_items (site : Site) {type : TypeRef} {error : CompletionError}
    (h : env.refusal? type = some error) (items : List Resolution) (state : State) :
    complete env site (.items items) state type = (.done, state.fail site error) := by
  induction type with
  | nonNull inner ih => exact ih h
  | list item _ => cases h
  | resolved definition => exact completeAt_items site h items state
  | late name =>
    obtain ⟨definition, hd, hr⟩ := Option.bind_eq_some_iff.mp h
    rw [complete, hd]
    exact completeAt_items site hr items state

end Refusing

namespace Executor

/-- Executors whose resolvers, as far as a request calls them, give the same values but for the
ways in which lists are delivered, and that differ in nothing else. -/
structure Delivers (a b : Executor) (schema : Schema) (request : Request) : Prop where
  config : b.config = a.config
  authorizers : b.registry.authorizers = a.registry.authorizers
  scalars : b.registry.scalars = a.registry.scalars
  answers : ∀ operation rootType,
    request.document.operation? request.operationName = .ok operation →
    schema.rootType (operation.withDefaults request.context) operation.kind = .ok rootType →
    ∀ frame group found type,
      Occurs (a.environment schema request operation)
        { path := [], type := rootType, value := request.root } operation.selections
        (.field frame group) →
      lookup (a.environment schema request operation) frame group = .ok (found, type) →
        (answer (a.environment schema request operation) frame group found type).1.Like
          (FieldValue.SameLists (a.environment schema request operation)) type
          (answer { a.environment schema request operation with registry := b.registry } frame
            group found type).1

variable {a b : Executor} {schema : Schema} {request : Request}

theorem Delivers.likens (h : a.Delivers b schema request) : a.Likens b schema request where
  config := h.config
  registry operation rootType ho ht :=
    ⟨_, { authorizers := h.authorizers
          answers := h.answers operation rootType ho ht
          route := fun _ _ _ hv => Site.route_sameLists hv
          shape := fun _ _ _ hv => Shaped.of_sameLists h.scalars hv }⟩

/-- **It does not matter how a list is delivered where a list is declared**, at any depth and under
any wrappers, nor where the type is abstract and no object type is found for the array: executors
that differ in this only have the same responses. A list of separately settling values that is
delivered where a value of an object type or an abstract type is declared ends with one error at its
position and a null, and none of the selections on it are executed. -/
theorem lists_delivered_alike (a b : Executor) (schema : Schema) (request : Request) :
    (a.Delivers b schema request → a.SameResponses b schema request) ∧
    ∀ (env : Environment) (site : Site) (error : CompletionError),
      env.refusal? site.type = some error → ∀ items state,
        (Work.resume site .complete (.list items)).step env state =
            (.work (.complete site (.items items)), state) ∧
          (Work.complete site (.items items)).step env state = (.done, state.fail site error) := by
  refine ⟨fun h => h.likens.sameResponses, fun env site error h items state => ⟨rfl, ?_⟩⟩
  exact Completion.complete_items site h items state

end Executor

namespace Sample

/-- A schema with a field of a given type for users, all of whom have a name. -/
def community (users : TypeRef) : Schema where
  queryType := some "Query"
  types := [.object { name := "Query", fields := [{ name := "users", type := users }] },
    .object { name := "User", fields := [{ name := "name", type := .late "String" }] },
    .scalar { name := "String" }]

/-- Gives a value for the users, at one path. -/
def usersAtRoot (value : FieldValue) : Resolver where
  resolve _ _ _ info := .ready (if info.path = [.key "users"] then value else .value .null)

/-- Every user is called Ann. -/
def delivering (value : FieldValue) : Executor where
  registry :=
    { resolvers := [("Query.users", usersAtRoot value),
        ("User.name", { resolve := fun _ _ _ _ => .ready (.value (.str "Ann")) })] }

def rollCall : Operation where
  selections := [.field { name := "users", selections := [.field { name := "name" }] }]

def callUsers : Request where
  document := { operations := [rollCall] }

/-- Two users, one of whom is not known. -/
def pair : List Json := [.int 1, .null]

/-- The environment of a request for the users. -/
def environmentOf (users : TypeRef) : Environment :=
  ({} : Executor).environment (community users) callUsers rollCall

/-- The place of the users, declared with a type. -/
def usersAs (users : TypeRef) : Site where
  field := { parentType := "Query", fieldName := "users" }
  path := [.key "users"]
  type := users

/-- Inside of the users the resolvers do not tell the deliveries apart. -/
theorem answer_delivering (value other : FieldValue) (env : Environment) (frame : ObjectFrame)
    (hn : frame.path ≠ []) (group : FieldGroup) (found : FieldLookup) (type : TypeRef) :
    (answer { env with registry := (delivering value).registry } frame group found type).1 =
      (answer { env with registry := (delivering other).registry } frame group found type).1 := by
  have hpath : frame.path.key group.key ≠ [.key "users"] := by
    intro he
    have hsplit : frame.path ++ [.key group.key] = [] ++ [.key "users"] := he
    exact hn (List.append_inj' hsplit rfl).1
  cases found with
  | introspection field => rfl
  | ordinary definition =>
    simp only [answer, delivering, Registry.resolver?, Members.get?]
    by_cases hkey : "Query.users" = Registry.fieldKey frame.type.name group.node.name
    · simp only [hkey, if_true, usersAtRoot, if_neg hpath]
    · simp only [hkey, if_false]
      rfl

/-- Executors that deliver the same list of users. -/
theorem delivers_users (item : TypeRef) (value other : FieldValue)
    (h : ∀ env, FieldValue.SameLists env (.list item) value other) :
    (delivering value).Delivers (delivering other) (community (.list item)) callUsers where
  config := rfl
  authorizers := rfl
  scalars := rfl
  answers operation rootType ho ht frame group found type hoccurs hl := by
    obtain rfl := Except.ok.inj ho
    obtain rfl := Except.ok.inj ht
    cases hoccurs with
    | @field _ selections groups _ parent hg hm =>
    cases parent with
    | root =>
      have hgroups : groups = [{ key := "users", node := { name := "users", selections :=
          [.field { name := "name" }] } }] := by
        refine Except.ok.inj (hg.symm.trans ?_)
        cbv
      rw [hgroups] at hm
      obtain rfl := List.mem_singleton.mp hm
      obtain ⟨rfl, rfl⟩ := Prod.mk.inj (Except.ok.inj hl)
      exact ⟨rfl, .ready (h _)⟩
    | @enter site type' value' data exposed hr =>
      have hanswer := answer_delivering value other
        ((delivering value).environment (community (.list item)) callUsers rollCall)
        ⟨site.path, .object type', data⟩ exposed.exposed_path_ne_nil group found type
      exact ⟨congrArg Reply.reports hanswer, hanswer ▸ .refl (.refl type) _⟩

end Sample

namespace Executor

open Sample

/-- Two users are answered alike, however they are delivered, and refused where one is declared. -/
theorem pair_delivered_alike :
    (delivering (.list (pair.map fun raw => .ready (.value raw)))).SameResponses
        (delivering (.value (.arr pair))) (community (.list (.late "User"))) callUsers ∧
      ((delivering (.value (.arr pair))).execute (community (.list (.late "User"))) callUsers
        40).map (Except.map fun execution => execution.response.data) =
          some (.ok (.obj [("users", .arr [.obj [("name", .str "Ann")], .null])])) ∧
      ∀ items state, (Work.complete (usersAs (.nonNull (.late "User"))) (.items items)).step
          (environmentOf (.nonNull (.late "User"))) state =
        (.done, state.fail (usersAs (.nonNull (.late "User"))) .listForObject) := by
  have halike := lists_delivered_alike
    (delivering (.list (pair.map fun raw => .ready (.value raw))))
    (delivering (.value (.arr pair))) (community (.list (.late "User"))) callUsers
  refine ⟨halike.1 (delivers_users _ _ _ fun env => FieldValue.sameLists_ready _ _), ?_, ?_⟩
  · cbv
  · exact fun items state => (halike.2 _ (usersAs _) .listForObject rfl items state).2

/-- Where one user is declared, a list with a number is refused as a list of separately settling
values. As an array it is taken for a user, who is asked for a name: there is no error. -/
theorem array_taken_for_object :
    (∀ state, (Work.complete (usersAs (.late "User")) (.items [.ready (.value (.int 1))])).step
        (environmentOf (.late "User")) state =
      (.done, state.fail (usersAs (.late "User")) .listForObject)) ∧
    ((delivering (.value (.arr [.int 1]))).execute (community (.late "User")) callUsers
        40).map (Except.map Execution.response) =
      some (.ok { data := .obj [("users", .obj [("name", .str "Ann")])], errors := [] }) := by
  constructor
  · exact fun state => Completion.complete_items (usersAs (.late "User")) rfl _ state
  · cbv

end Executor

end GraphQL
