import GraphQL.Proofs.Evaluation

/-!
# The reference semantics

A recursive evaluator of requests. Completing a position comes to a value, to nothing where the
value was skipped, or to a null that propagates because the declared type of the position does not
admit null. What holds a propagating null becomes null itself, or propagates in turn. There is no
result tree, no order of arrival and no pruning here; a site still carries its path, since resolvers
are told it and errors are reported there.

The selections of an object lead to those of the objects in its fields. `depth` bounds how many of
these lie inside each other, so that a document whose fragments spread each other in a circle has an
evaluation too, if only an unfinished one.
-/

namespace GraphQL

/-- Induction on the wrappers of a type reference; the definitions inside a resolved reference do
not count. -/
@[induction_eliminator]
theorem TypeRef.wrappers {motive : TypeRef → Prop}
    (resolved : ∀ definition, motive (.resolved definition)) (late : ∀ name, motive (.late name))
    (list : ∀ item, motive item → motive (.list item))
    (nonNull : ∀ inner, motive inner → motive (.nonNull inner)) : ∀ type, motive type
  | .resolved definition => resolved definition
  | .late name => late name
  | .list item => list item (wrappers resolved late list nonNull item)
  | .nonNull inner => nonNull inner (wrappers resolved late list nonNull inner)

/-- What completing a position comes to. -/
inductive Completed where
  | absent
  /-- The value is null, and the position does not admit null. -/
  | propagating
  | value (data : Json)

namespace Completed

/-- A null at a position that may be required not to be null. -/
def null (required : Bool) : Completed := if required then propagating else value .null

/-- The members of an object without those that are absent; nothing if one propagates. -/
def members? : List (String × Completed) → Option (List (String × Json))
  | [] => some []
  | (_, propagating) :: _ => none
  | (_, absent) :: rest => members? rest
  | (name, value data) :: rest => (members? rest).map ((name, data) :: ·)

/-- The items of a list, null for those that are absent; nothing if one propagates. -/
def items? : List Completed → Option (List Json)
  | [] => some []
  | propagating :: _ => none
  | absent :: rest => (items? rest).map (.null :: ·)
  | value data :: rest => (items? rest).map (data :: ·)

def object (required : Bool) (fields : List (String × Completed)) : Completed :=
  match members? fields with
  | some members => value (.obj members)
  | none => null required

def list (required : Bool) (elements : List Completed) : Completed :=
  match items? elements with
  | some items => value (.arr items)
  | none => null required

def data : Completed → Json
  | value data => data
  | _ => .null

end Completed

namespace Stage

def reports : Stage → List ResponseError
  | pause _ => []
  | report errors => errors

end Stage

namespace Resolution

/-- The errors that are reported before the value settles. -/
def reports (resolution : Resolution) : List ResponseError :=
  resolution.stages.flatMap Stage.reports

end Resolution

namespace Reference

/-- The errors that reach a collector; all are dropped where there is none. -/
def collected (collector : Option ErrorCollector) (errors : List ResponseError) :
    List ResponseError :=
  match collector with
  | some collector => errors.map collector.fill
  | none => []

@[simp] theorem collected_nil (collector : Option ErrorCollector) :
    collected collector [] = [] := by
  cases collector <;> rfl

theorem collected_append (collector : Option ErrorCollector) (a b : List ResponseError) :
    collected collector (a ++ b) = collected collector a ++ collected collector b := by
  cases collector with
  | none => rfl
  | some collector => exact List.map_append

/-- A position that ends with errors and a null. -/
def ended (site : Site) (errors : List ResponseError) : Evaluation Completed :=
  .done (.null site.type.isNonNull) { errors }

/-- A position whose value cannot be completed. -/
def failed (site : Site) (error : CompletionError) : Evaluation Completed :=
  ended site [site.failure error]

/-- A settled value at a position: nulls, errors and skipped values end here. -/
def routed (site : Site) (value : FieldValue) (next : Content → Evaluation Completed) :
    Evaluation Completed :=
  match site.route value with
  | .skipped => .done .absent {}
  | .null errors => ended site errors
  | .content content => next content

/-- A value at a position, with the errors that are reported until it settles. -/
def settled (site : Site) (resolution : Resolution) (next : Content → Evaluation Completed) :
    Evaluation Completed :=
  (routed site resolution.settled next).after
    { errors := collected site.field.collector resolution.reports }

def elements (site : Site) (type : TypeRef) (count : Nat) : List Site :=
  (List.range count).map (site.item type)

theorem mem_elements {site element : Site} {type : TypeRef} {count : Nat}
    (h : element ∈ elements site type count) : ∃ place < count, element = site.item type place := by
  obtain ⟨place, hp, rfl⟩ := List.mem_map.mp h
  exact ⟨place, List.mem_range.mp hp, rfl⟩

theorem mem_zip_elements {site : Site} {type : TypeRef} {items : List Resolution}
    {element : Site × Resolution} (h : element ∈ (elements site type items.length).zip items) :
    ∃ place, element.1 = site.item type place ∧ items[place]? = some element.2 := by
  obtain ⟨place, hlt, rfl⟩ := List.mem_iff_getElem.mp h
  have hitem : place < items.length := by
    rw [List.length_zip] at hlt
    exact Nat.lt_of_lt_of_le hlt (Nat.min_le_right _ _)
  exact ⟨place, by simp [elements], by simp [hitem]⟩

variable (env : Environment)

def leaf (site : Site) (type : Leaf.LeafDef) : Content → Evaluation Completed
  | .items _ => failed site (.listForLeaf type.name)
  | .value value =>
    match Leaf.coerce env.registry.scalars type value with
    | .error message => failed site (.leafRefused message)
    | .ok .null => ended site (if site.type.isNonNull then [site.failure .nullNotAllowed] else [])
    | .ok output => .done (.value output) {}

section Complete

-- What the fields of an object come to, by its selections.
variable (fields : ObjectFrame → List Selection → Evaluation (List (String × Completed)))

/-- An object that has been authorized. -/
def entered (site : Site) (type : ObjectDef) : Content → Evaluation Completed
  | .items _ => failed site (.listForAuthorized type.name)
  | .value value =>
    (fields { path := site.path, type := .object type, value } site.field.selections).map
      (Completed.object site.type.isNonNull)

/-- An object, as its authorizer exposes it. -/
def object (site : Site) (type : ObjectDef) : Content → Evaluation Completed
  | .items _ => failed site .listForObject
  | .value value =>
    routed site (env.registry.authorize type value env.context).settled
      (entered fields site type)

/-- A value of an abstract type, completed by its object type. -/
def abstract (site : Site) (type : TypeDef) (content : Content) : Evaluation Completed :=
  let narrowed := match content with
    | .value value => env.schema.concreteType? env.context type value
    | .items _ => none
  match narrowed with
  | some concrete => object env fields site concrete content
  | none => failed site (.unresolvedType type.name)

def named (site : Site) (type : TypeDef) (content : Content) : Evaluation Completed :=
  match type with
  | .scalar definition => leaf env site (.scalar definition) content
  | .enum definition => leaf env site (.enum definition) content
  | .union _ => abstract env fields site type content
  | .interface _ => abstract env fields site type content
  | .object definition => object env fields site definition content
  | .inputObject definition => .fault (.inputTypeAsOutput definition.name)

/-- A value by what is left of the declared type of its position. -/
def complete : TypeRef → Site → Content → Evaluation Completed
  | .nonNull inner, site, content => complete inner site content
  | .list item, site, content =>
    match Completion.items? content with
    | none => failed site .listExpected
    | some items =>
      (Evaluation.all (((elements site item items.length).zip items).map fun element =>
        settled element.1 element.2 (complete item element.1))).map
          (Completed.list site.type.isNonNull)
  | .resolved definition, site, content => named env fields site definition content
  | .late name, site, content =>
    match env.schema.visibleType? env.context name with
    | some definition => named env fields site definition content
    | none => .fault (.unknownType name)

def field (prepared : Site × Reply) : Evaluation Completed :=
  (settled prepared.1 prepared.2.resolution
    (complete env fields prepared.1.type prepared.1)).after
      { errors := collected prepared.1.field.collector prepared.2.reports }

end Complete

/-- The definition of a field and its declared type, looked up as far as its outermost name. -/
def lookup (frame : ObjectFrame) (group : FieldGroup) : Except Fault (FieldLookup × TypeRef) :=
  match env.schema.field? frame.type group.node.name with
  | none => .error (.unknownField frame.type.name group.node.name)
  | some found =>
    match env.schema.resolve env.context found.definition.type with
    | .error raised => .error raised
    | .ok type => .ok (found, type)

variable {env} in
theorem lookup_ok {frame : ObjectFrame} {group : FieldGroup} {found : FieldLookup} {type : TypeRef}
    (h : lookup env frame group = .ok (found, type)) :
    env.schema.field? frame.type group.node.name = some found ∧
      env.schema.resolve env.context found.definition.type = .ok type := by
  unfold lookup at h
  split at h
  · cases h
  · next found hf =>
    split at h
    · cases h
    · next type ht =>
      cases h
      exact ⟨hf, ht⟩

/-- What the resolver of a field is given. -/
def arguments (frame : ObjectFrame) (group : FieldGroup) (found : FieldLookup) : ResolverArgs :=
  Preparation.arguments env found.definition group.node (frame.path.key group.key)

def site (frame : ObjectFrame) (group : FieldGroup) (found : FieldLookup) (type : TypeRef) :
    Site where
  field :=
    { parentType := frame.type.name, fieldName := group.node.name,
      position := group.node.position, selections := group.selections,
      collector := (arguments env frame group found).collector }
  path := frame.path.key group.key
  type := type

/-- What a field is answered with, and the call of its resolver. -/
def answer (frame : ObjectFrame) (group : FieldGroup) (found : FieldLookup) (type : TypeRef) :
    Reply × List Call :=
  let args := arguments env frame group found
  match found with
  | .introspection field =>
    (.ready (Introspection.answer env.schema env.context env.config.introspection frame.type args
      field), [])
  | .ordinary _ =>
    match env.registry.resolver? frame.type.name group.node.name with
    | none => (.ready (.value .null), [])
    | some (resolver, _) =>
      let path := frame.path.key group.key
      let info : ResolverInfo :=
        { fieldName := group.node.name, parentType := frame.type.name, returnType := type.text,
          path, schema := some env.schema }
      (resolver.resolve frame.value args env.context info,
        [⟨path, frame.type.name, group.node.name⟩])

/-- A field up to the answer of its resolver. -/
def prepare (frame : ObjectFrame) (group : FieldGroup) : Evaluation (Site × Reply) :=
  match lookup env frame group with
  | .error raised => .fault raised
  | .ok (found, type) =>
    let answered := answer env frame group found type
    .done (site env frame group found type, answered.1) { calls := answered.2 }

/-- What the fields of an object come to. All of them are prepared before the first is completed,
unless they are `serial`: then each is completed before the next is prepared. -/
def completeAll (frame : ObjectFrame) (groups : List FieldGroup) (serial : Bool)
    (complete : Site × Reply → Evaluation Completed) : Evaluation (List Completed) :=
  if serial then .all (groups.map fun group => (prepare env frame group).bind complete)
  else (Evaluation.all (groups.map (prepare env frame))).bind fun prepared =>
    .all (prepared.map complete)

/-- What the selections of an object come to, by response keys. -/
def select : Nat → ObjectFrame → List Selection → Bool → Evaluation (List (String × Completed))
  | 0, _, _, _ => .unfinished
  | depth + 1, frame, selections, serial =>
    match Gathering.collect env.schema env.document env.context frame.type selections with
    | .error raised => .fault raised
    | .ok groups =>
      (completeAll env frame groups serial
        (field env fun frame selections => select depth frame selections false)).map
          (groups.map FieldGroup.key).zip

def execute (executor : Executor) (schema : Schema) (request : Request) (depth : Nat) :
    Evaluation Json :=
  match request.document.operation? request.operationName with
  | .error raised => .fault raised
  | .ok operation =>
    let context := operation.withDefaults request.context
    match schema.rootType context operation.kind with
    | .error raised => .fault raised
    | .ok rootType =>
      let env : Environment :=
        { schema, document := request.document, registry := executor.registry,
          config := executor.config, context }
      let frame : ObjectFrame := { path := [], type := rootType, value := request.root }
      (select env depth frame operation.selections (operation.kind == .mutation)).map
        fun fields => (Completed.object false fields).data

end Reference

end GraphQL
