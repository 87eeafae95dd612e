import Mathlib.Tactic.TFAE
import GraphQL.Proofs.Descriptions

/-!
# Three notions of a possible type

The object types that a value of an abstract type may have are enumerated for introspection, found
by their name for a value, and tested for by the fragments on the abstract type. The enumeration
goes over a union's members or over the schema's types, the test asks for one name. They agree
wherever the types of the schema are registered under distinct names, as they are in every schema
that has been assembled, whatever its types and whichever of them are replaced or hidden.
-/

namespace GraphQL

namespace Named

variable {α : Type} [Named α]

/-- Adding an item keeps the names distinct. -/
theorem nodup_put {item : α} {items : List α} (h : (items.map name).Nodup) :
    ((put item items).map name).Nodup := by
  induction items with
  | nil => exact List.nodup_singleton _
  | cons old rest ih =>
    rw [List.map_cons, List.nodup_cons] at h
    obtain ⟨hold, hrest⟩ := h
    rw [put]
    split
    · next hname => exact List.nodup_cons.mpr ⟨hname ▸ hold, hrest⟩
    · next hname =>
      refine List.nodup_cons.mpr ⟨fun hm => ?_, ih hrest⟩
      obtain ⟨other, ho, heq⟩ := List.mem_map.mp hm
      rcases mem_put ho with rfl | ho
      · exact hname heq.symm
      · exact hold (heq ▸ List.mem_map_of_mem ho)

/-- Among items of distinct names each is found by its own. -/
theorem find?_of_mem {item : α} {items : List α} (hn : (items.map name).Nodup) (h : item ∈ items) :
    find? (name item) items = some item := by
  induction items with
  | nil => cases h
  | cons first rest ih =>
    rw [List.map_cons, List.nodup_cons] at hn
    obtain ⟨hfirst, hrest⟩ := hn
    rcases List.mem_cons.mp h with rfl | h
    · exact List.find?_cons_of_pos (decide_eq_true rfl)
    · have hne : name first ≠ name item := fun he => hfirst (he ▸ List.mem_map_of_mem h)
      rw [find?, List.find?_cons_of_neg (by simpa using hne)]
      exact ih hrest h

end Named

namespace Schema

/-- The schemas that can be assembled, from the standard one or from nothing. A type or directive
takes the place of the one of its name, a standard one too. -/
inductive Assembled : Schema → Prop where
  | empty : Assembled {}
  | standard : Assembled .standard
  | queryType {schema : Schema} (h : Assembled schema) (name : String) :
      Assembled { schema with queryType := some name }
  | mutationType {schema : Schema} (h : Assembled schema) (name : String) :
      Assembled { schema with mutationType := some name }
  | subscriptionType {schema : Schema} (h : Assembled schema) (name : String) :
      Assembled { schema with subscriptionType := some name }
  | addType {schema : Schema} (h : Assembled schema) (definition : TypeDef) :
      Assembled (schema.addType definition)
  | addDirective {schema : Schema} (h : Assembled schema) (definition : DirectiveDef) :
      Assembled (schema.addDirective definition)
  | setTypeResolver {schema : Schema} (h : Assembled schema) (name : String)
      (resolver : TypeResolver) : Assembled (schema.setTypeResolver name resolver)
  | visibility {schema : Schema} (h : Assembled schema) (visible : Visibility) :
      Assembled { schema with visibility := some visible }

variable {schema : Schema} {context : Context} {type : TypeDef} {object : ObjectDef}
  {name : String}

/-- The types of an assembled schema have distinct names. -/
theorem Assembled.nodup (h : schema.Assembled) : (schema.types.map Named.name).Nodup := by
  induction h with
  | empty => exact List.nodup_nil
  | standard => decide
  | addType _ definition ih => exact Named.nodup_put ih
  | _ => assumption

theorem type?_of_mem (hn : (schema.types.map Named.name).Nodup) (h : type ∈ schema.types) :
    schema.type? type.name = some type :=
  Named.find?_of_mem hn h

theorem visibleType?_of_isSome (hr : schema.type? name = some type)
    (h : (schema.visibleType? context name).isSome) :
    schema.visibleType? context name = some type := by
  obtain ⟨found, hf⟩ := Option.isSome_iff_exists.mp h
  exact hf.trans ((type?_of_visible hf).symm.trans hr)

theorem implements_iff {interface : String} :
    implements type interface = true ↔
      ∃ object, type = .object object ∧ object.interfaces.contains interface = true := by
  cases type with
  | object object => exact ⟨fun h => ⟨object, rfl, h⟩, fun ⟨_, he, h⟩ => by cases he; exact h⟩
  | _ => exact ⟨nofun, fun ⟨_, he, _⟩ => nomatch he⟩

theorem isObject_iff : type.isObject = true ↔ ∃ object, type = .object object := by
  cases type with
  | object object => exact ⟨fun _ => ⟨object, rfl⟩, fun _ => rfl⟩
  | _ => exact ⟨nofun, fun ⟨_, he⟩ => nomatch he⟩

/-- What is enumerated is what is tested for: the possible types of an abstract type are the
registered object types that are possible by their names. -/
theorem mem_possibleTypes_iff (hn : (schema.types.map Named.name).Nodup)
    (ha : type.isAbstract = true) {candidate : TypeDef} :
    candidate ∈ schema.possibleTypes type ↔ ∃ object, candidate = .object object ∧
      schema.type? object.name = some (.object object) ∧
        schema.isPossibleType type object.name = true := by
  cases type with
  | union union =>
    simp only [possibleTypes, isPossibleType, List.mem_filter, List.mem_filterMap, isObject_iff,
      List.contains_iff_mem]
    constructor
    · rintro ⟨⟨member, hm, hr⟩, object, rfl⟩
      obtain rfl : object.name = member := name_of_type hr
      exact ⟨object, rfl, hr, hm⟩
    · rintro ⟨object, rfl, hr, hm⟩
      exact ⟨⟨object.name, hm, hr⟩, object, rfl⟩
  | interface interface =>
    simp only [possibleTypes, List.mem_filter, implements_iff]
    constructor
    · rintro ⟨hm, object, rfl, hi⟩
      -- the test asks for the type of this name, which is the candidate only if names are distinct
      have hr : schema.type? object.name = some (.object object) := type?_of_mem hn hm
      refine ⟨object, rfl, hr, ?_⟩
      rw [isPossibleType, hr]
      exact hi
    · rintro ⟨object, rfl, hr, hp⟩
      rw [isPossibleType, hr] at hp
      exact ⟨List.mem_of_find?_eq_some hr, object, rfl, hp⟩
  | scalar _ | object _ | enum _ | inputObject _ => cases ha

/-- The object type of a value is the visible one of the name that tells it, if it is possible. -/
theorem concreteType?_eq_some_iff {value : Json} :
    schema.concreteType? context type value = some object ↔
      ∃ name, schema.concreteName? context type value = some name ∧
        schema.visibleType? context name = some (.object object) ∧
          schema.isPossibleType type name = true := by
  constructor
  · intro h
    unfold concreteType? at h
    split at h
    · cases h
    · next name hname =>
      split at h
      · next found hv =>
        split at h
        · next hp =>
          obtain rfl := Option.some.inj h
          exact ⟨name, hname, hv, hp⟩
        · cases h
      · cases h
  · rintro ⟨name, hname, hv, hp⟩
    rw [concreteType?, hname]
    dsimp only
    rw [hv]
    exact if_pos hp

/-- Where no type resolver is registered, the name that a value gives itself comes first. -/
theorem concreteName?_of_typename {value : Json}
    (hr : Members.get? type.name schema.typeResolvers = none)
    (h : value.member? "__typename" = some (.str name)) :
    schema.concreteName? context type value = some name := by
  simp [concreteName?, hr, h, Json.asText?]

end Schema

namespace Introspection

variable {schema : Schema} {context : Context} {type : TypeDef} {name : String}

/-- Introspection lists the name among the possible types of a type: the resolver of this field,
given the description of the type, answers with a list in which there is a type of the name. -/
def ListsPossible (schema : Schema) (context : Context) (type : TypeDef) (name : String) : Prop :=
  ∃ resolver source,
    Registry.standard.resolver? "__Type" "possibleTypes" = some (resolver, source) ∧
      ∀ args info, info.schema = some schema → ∃ items,
        resolver.resolve (describeType type) args context info = .ready (.value (.arr items)) ∧
          ∃ item ∈ items, item.member? "name" = some (.str name)

/-- What introspection answers for an abstract type that the request sees. -/
theorem resolve_possibleTypes (hv : schema.visibleType? context type.name = some type)
    (ha : type.isAbstract = true) (args : ResolverArgs) {info : ResolverInfo}
    (hi : info.schema = some schema) :
    (listing fun schema context _ type => describePossibleTypes schema context type).resolve
        (describeType type) args context info =
      .ready (.value (.arr (((schema.possibleTypes type).filter fun candidate =>
        (schema.visibleType? context candidate.name).isSome).map describeType))) := by
  have hname : ((describeType type).member? "name").bind Json.asText? = some type.name := rfl
  simp only [listing, hi, hname, Option.bind_eq_bind, Option.bind_some, hv, describePossibleTypes,
    ha, if_true]

/-- The listed names are those of the visible object types that are possible. -/
theorem listsPossible_iff (hn : (schema.types.map Named.name).Nodup)
    (hv : schema.visibleType? context type.name = some type) (ha : type.isAbstract = true) :
    ListsPossible schema context type name ↔
      ∃ object, schema.visibleType? context name = some (.object object) ∧
        schema.isPossibleType type name = true := by
  constructor
  · rintro ⟨resolver, source, hr, hanswers⟩
    obtain ⟨rfl, -⟩ := Prod.mk.inj (Option.some.inj hr)
    obtain ⟨items, hanswer, item, hitem, hname⟩ :=
      hanswers {} { fieldName := "", parentType := "", schema := some schema } rfl
    obtain rfl : _ = items := by
      simpa [Reply.ready] using (resolve_possibleTypes hv ha _ rfl).symm.trans hanswer
    obtain ⟨candidate, hc, rfl⟩ := List.mem_map.mp hitem
    obtain ⟨hc, hseen⟩ := List.mem_filter.mp hc
    obtain ⟨object, rfl, hr, hp⟩ := (Schema.mem_possibleTypes_iff hn ha).mp hc
    obtain rfl : object.name = name := Json.str.inj (Option.some.inj hname)
    exact ⟨object, Schema.visibleType?_of_isSome hr hseen, hp⟩
  · rintro ⟨object, hseen, hp⟩
    have hr := Schema.type?_of_visible hseen
    obtain rfl : object.name = name := Schema.name_of_type hr
    refine ⟨_, .registered, rfl, fun args info hi =>
      ⟨_, resolve_possibleTypes hv ha args hi, describeType (.object object), ?_, rfl⟩⟩
    exact List.mem_map_of_mem (List.mem_filter.mpr
      ⟨(Schema.mem_possibleTypes_iff hn ha).mpr ⟨object, rfl, hr, hp⟩,
        Option.isSome_iff_exists.mpr ⟨_, hseen⟩⟩)

end Introspection

namespace Gathering

variable {schema : Schema} {context : Context} {type runtimeType : TypeDef} {condition : String}

theorem applies_iff (hv : schema.visibleType? context condition = some type) :
    applies schema context condition runtimeType = .ok true ↔
      schema.isPossibleType type runtimeType.name = true := by
  rw [applies, hv]
  exact ⟨Except.ok.inj, congrArg Except.ok⟩

end Gathering

namespace Completion

variable {env : Environment} {site : Site} {type : TypeDef} {object : ObjectDef} {value : Json}
  {state : State}

/-- A value of an abstract type is completed as a value of an object type just if this is found to
be its type: otherwise it ends with an error, or enters another type. -/
theorem completeAt_eq_completeObject_iff (ha : type.isAbstract = true) :
    completeAt env site type (.value value) state =
        completeObject env site object (.value value) state ↔
      env.schema.concreteType? env.context type value = some object := by
  have hcomplete : completeAt env site type (.value value) state =
      completeAbstract env site type (.value value) state := by
    cases type with
    | union _ => rfl
    | interface _ => rfl
    | scalar _ | object _ | enum _ | inputObject _ => cases ha
  rw [hcomplete, completeAbstract]
  cases env.schema.concreteType? env.context type value with
  | none =>
    constructor
    · intro h
      cases congrArg Prod.fst h
    · intro h
      cases h
  | some found =>
    constructor
    · intro h
      have hwork := congrArg Prod.fst h
      simp only [completeObject, Task.work.injEq, Work.settle.injEq, Purpose.enter.injEq] at hwork
      exact congrArg some hwork.2.1
    · intro h
      obtain rfl := Option.some.inj h
      rfl

end Completion

namespace Environment

/-- **The notions of a possible type agree.** For an abstract type that the request sees, in an
assembled schema: if no type resolver is registered for it, an object type that the request sees is
listed by introspection among the possible types just if a value that gives itself this name is
found to be of the object type, and is completed as such, and just if fragments on the abstract type
apply to objects of it. With a type resolver or without, whatever type is found for a value is a
visible object type that introspection lists and to which such fragments apply. -/
theorem possible_types_agree (env : Environment) {type : TypeDef} {name : String}
    (h : env.schema.Assembled)
    (hv : env.schema.visibleType? env.context name = some type) (ha : type.isAbstract = true) :
    (Members.get? name env.schema.typeResolvers = none →
      ∀ (objectName : String) (object : ObjectDef) (value : Json) (site : Site) (state : State),
        env.schema.visibleType? env.context objectName = some (.object object) →
        value.member? "__typename" = some (.str objectName) →
        [Introspection.ListsPossible env.schema env.context type objectName,
          env.schema.concreteType? env.context type value = some object,
          Completion.completeAt env site type (.value value) state =
            Completion.completeObject env site object (.value value) state,
          Gathering.applies env.schema env.context name (.object object) = .ok true].TFAE) ∧
    ∀ (value : Json) (object : ObjectDef),
      env.schema.concreteType? env.context type value = some object →
        env.schema.visibleType? env.context object.name = some (.object object) ∧
        Introspection.ListsPossible env.schema env.context type object.name ∧
        Gathering.applies env.schema env.context name (.object object) = .ok true := by
  obtain rfl : type.name = name := Schema.name_of_type (Schema.type?_of_visible hv)
  refine ⟨fun hr objectName object value site state hseen htypename => ?_,
    fun value object hc => ?_⟩
  · obtain rfl : object.name = objectName := Schema.name_of_type (Schema.type?_of_visible hseen)
    have hname : env.schema.concreteName? env.context type value = some object.name :=
      Schema.concreteName?_of_typename hr htypename
    have happlies : Gathering.applies env.schema env.context type.name (.object object) =
        .ok true ↔ env.schema.isPossibleType type object.name = true := Gathering.applies_iff hv
    have hlists : Introspection.ListsPossible env.schema env.context type object.name ↔
        env.schema.isPossibleType type object.name = true :=
      (Introspection.listsPossible_iff h.nodup hv ha).trans
        ⟨fun ⟨_, _, hp⟩ => hp, fun hp => ⟨object, hseen, hp⟩⟩
    have hfound : env.schema.concreteType? env.context type value = some object ↔
        env.schema.isPossibleType type object.name = true := by
      rw [Schema.concreteType?_eq_some_iff]
      constructor
      · rintro ⟨other, ho, -, hp⟩
        obtain rfl := Option.some.inj (hname.symm.trans ho)
        exact hp
      · exact fun hp => ⟨object.name, hname, hseen, hp⟩
    tfae_have 1 ↔ 2 := hlists.trans hfound.symm
    tfae_have 2 ↔ 3 := (Completion.completeAt_eq_completeObject_iff ha).symm
    tfae_have 2 ↔ 4 := hfound.trans happlies.symm
    tfae_finish
  · obtain ⟨found, -, hseen, hp⟩ := Schema.concreteType?_eq_some_iff.mp hc
    obtain rfl : object.name = found := Schema.name_of_type (Schema.type?_of_visible hseen)
    exact ⟨hseen, (Introspection.listsPossible_iff h.nodup hv ha).mpr ⟨object, hseen, hp⟩,
      (Gathering.applies_iff hv).mpr hp⟩

end Environment

namespace Sample

def rover : ObjectDef where
  name := "Rover"
  interfaces := ["Vehicle"]

/-- Whatever can be hired: a type twice, one that is not registered, and one that is hidden. -/
def hirable : UnionDef where
  name := "Hirable"
  members := ["Rover", "Glider", "Rover", "Tank"]

def boat : ObjectDef where
  name := "Boat"

/-- Vehicles and boats. All values of the type of vehicles are rovers. -/
def garage : Schema :=
  let visible : Visibility := fun type _ => type.name != "Tank"
  (((((({ Schema.standard with visibility := some visible }).addType (.object boat)).addType
    (.interface { name := "Vehicle" })).addType (.object { name := "Rover" })).addType (.object
      { name := "Tank", interfaces := ["Vehicle"] })).addType (.union hirable)).addType
        (.object rover) |>.setTypeResolver "Vehicle" fun _ _ => some "Rover"

theorem garage_assembled : garage.Assembled :=
  ((((((Schema.Assembled.standard.visibility _).addType _).addType _).addType _).addType _).addType
    _).addType _ |>.setTypeResolver _ _

def hiring : Environment where
  schema := garage
  document := {}
  registry := .standard
  config := {}
  context := {}

/-- The place of whatever has been hired. -/
def hired : Site where
  field := { parentType := "Query", fieldName := "hired" }
  path := [.key "hired"]
  type := .late "Hirable"

def called (name : String) : Json := .obj [("__typename", .str name)]

end Sample

namespace Environment

open Sample

/-- A rover can be hired: it is listed, found and selected on. A boat is none of it. Any vehicle is
a rover, which is listed among the vehicles. -/
theorem rovers_agreed_on :
    (Introspection.ListsPossible garage hiring.context (.union hirable) "Rover" ∧
      Gathering.applies garage hiring.context "Hirable" (.object rover) = .ok true) ∧
    (¬ Introspection.ListsPossible garage hiring.context (.union hirable) "Boat" ∧
      Gathering.applies garage hiring.context "Hirable" (.object boat) ≠ .ok true) ∧
    garage.concreteType? hiring.context (.interface { name := "Vehicle" }) .null = some rover ∧
      Introspection.ListsPossible garage hiring.context (.interface { name := "Vehicle" })
        "Rover" := by
  have hhirable := (possible_types_agree hiring garage_assembled
    (rfl : garage.visibleType? hiring.context "Hirable" = some (.union hirable)) rfl).1 rfl
  have hrover := hhirable "Rover" rover (called "Rover") hired {} rfl rfl
  have hboat := hhirable "Boat" boat (called "Boat") hired {} rfl rfl
  have hvehicle := (possible_types_agree hiring garage_assembled
    (rfl : garage.visibleType? hiring.context "Vehicle" =
      some (.interface { name := "Vehicle" })) rfl).2 .null rover rfl
  have hfound : garage.concreteType? hiring.context (.union hirable) (called "Rover") =
      some rover := rfl
  have hlost : garage.concreteType? hiring.context (.union hirable) (called "Boat") ≠ some boat :=
    nofun
  exact ⟨⟨(hrover.out 0 1).mpr hfound, (hrover.out 3 1).mpr hfound⟩,
    ⟨fun h => hlost ((hboat.out 0 1).mp h), fun h => hlost ((hboat.out 3 1).mp h)⟩, rfl,
    hvehicle.2.1⟩

end Environment

end GraphQL
