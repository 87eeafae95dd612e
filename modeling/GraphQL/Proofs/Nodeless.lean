import GraphQL.Proofs.Steps
import GraphQL.Schema.Builtin

/-!
# Schemas whose fields do not ask for their nodes

A resolver is given the selection by which its field was requested if the definition of the field
asks for it. In a schema without such fields, resolvers depend on a request by its arguments only.
Definitions that are held by references count, and those that execution comes by through a lookup.
-/

namespace GraphQL

namespace TypeRef

mutual

/-- True if no field of the definition that the reference holds asks for its node, and no field of
the definitions inside. -/
def isNodeless : TypeRef → Bool
  | resolved (.object ⟨_, _, fields, _⟩) => areNodeless fields
  | resolved (.interface ⟨_, _, fields, _⟩) => areNodeless fields
  | resolved _ => true
  | late _ => true
  | list item => isNodeless item
  | nonNull inner => isNodeless inner

def areNodeless : List FieldDef → Bool
  | [] => true
  | ⟨_, _, type, _, _, extras⟩ :: rest =>
    !extras.contains .node && isNodeless type && areNodeless rest

end

theorem areNodeless_eq (fields : List FieldDef) : areNodeless fields =
    fields.all fun field => !field.extras.contains .node && field.type.isNodeless := by
  induction fields with
  | nil => rfl
  | cons field rest ih => rw [areNodeless, ih, List.all_cons]

theorem isNodeless_resolved (definition : TypeDef) : (resolved definition).isNodeless =
    (definition.fields?.getD []).all fun field =>
      !field.extras.contains .node && field.type.isNodeless := by
  cases definition with
  | object definition => exact areNodeless_eq definition.fields
  | interface definition => exact areNodeless_eq definition.fields
  | _ => rfl

end TypeRef

/-- The definition of a field does not ask for its node, nor does any that its type holds. -/
structure FieldDef.Nodeless (definition : FieldDef) : Prop where
  extras : definition.extras.contains .node = false
  type : definition.type.isNodeless = true

namespace Schema

def isNodeless (schema : Schema) : Bool :=
  schema.types.all fun definition => (TypeRef.resolved definition).isNodeless

example : standard.isNodeless := by decide

variable {schema : Schema} {context : Context} {name : String}

theorem nodeless_visibleType? (h : schema.isNodeless) {definition : TypeDef}
    (hv : schema.visibleType? context name = some definition) :
    (TypeRef.resolved definition).isNodeless := by
  exact List.all_eq_true.mp h definition (List.mem_of_find?_eq_some (type?_of_visible hv))

theorem nodeless_rootType (h : schema.isNodeless) {kind : OperationKind} {definition : TypeDef}
    (hr : schema.rootType context kind = .ok definition) :
    (TypeRef.resolved definition).isNodeless := by
  unfold rootType at hr
  split at hr
  · cases hr
  · split at hr
    · next hv =>
      obtain rfl := Except.ok.inj hr
      exact nodeless_visibleType? h hv
    · cases hr

theorem nodeless_resolve (h : schema.isNodeless) {type resolved : TypeRef} (ht : type.isNodeless)
    (hr : schema.resolve context type = .ok resolved) : resolved.isNodeless := by
  cases type with
  | late name =>
    rw [resolve] at hr
    split at hr
    · next hv =>
      obtain rfl := Except.ok.inj hr
      exact nodeless_visibleType? h hv
    · cases hr
  | _ =>
    obtain rfl := Except.ok.inj hr
    exact ht

theorem nodeless_concreteType? (h : schema.isNodeless) {type : TypeDef} {value : Json}
    {object : ObjectDef} (hc : schema.concreteType? context type value = some object) :
    (TypeRef.resolved (.object object)).isNodeless := by
  unfold concreteType? at hc
  split at hc
  · cases hc
  · split at hc
    · next hv =>
      split at hc
      · obtain rfl := Option.some.inj hc
        exact nodeless_visibleType? h hv
      · cases hc
    · cases hc

/-- The introspection fields do not ask for their nodes. -/
theorem nodeless_field? {owner : TypeDef} (ho : (TypeRef.resolved owner).isNodeless)
    {found : FieldLookup} (hf : schema.field? owner name = some found) :
    FieldDef.Nodeless found.definition := by
  unfold field? at hf
  split at hf
  · next definition hfound =>
    obtain rfl := Option.some.inj hf
    rw [TypeRef.isNodeless_resolved] at ho
    have hfield := List.all_eq_true.mp ho definition (List.mem_of_find?_eq_some hfound)
    simp only [Bool.and_eq_true, Bool.not_eq_true'] at hfield
    exact ⟨hfield.1, hfield.2⟩
  · have hmeta : ∀ field : MetaField, FieldDef.Nodeless field.definition := by
      intro field
      cases field <;> exact ⟨rfl, rfl⟩
    split at hf
    · exact Option.some.inj hf ▸ hmeta .schema
    · split at hf
      · exact Option.some.inj hf ▸ hmeta .type
      · split at hf
        · exact Option.some.inj hf ▸ hmeta .typename
        · cases hf

end Schema

namespace Shaped

/-- No field that a value leads to asks for its node. -/
def isNodeless : Shaped → Bool
  | list itemType _ => itemType.isNodeless
  | object type _ => (TypeRef.resolved (.object type)).isNodeless
  | _ => true

variable {env : Environment} (h : env.schema.isNodeless) (site : Site) (content : Content)

include h

theorem nodeless_ofNamed {type : TypeDef} (ht : (TypeRef.resolved type).isNodeless) :
    (ofNamed env site content type).isNodeless := by
  rcases ofNamed_cases env site content type with
    ⟨_, he⟩ | ⟨_, he⟩ | ⟨_, he⟩ | ⟨concrete, value, -, rfl | ⟨-, hc⟩, he⟩
  · rw [he]
    rfl
  · rw [he]
    rfl
  · rw [he]
    rfl
  · rw [he]
    exact ht
  · rw [he]
    exact Schema.nodeless_concreteType? h hc

theorem nodeless_of {type : TypeRef} (ht : type.isNodeless) :
    (of env site content type).isNodeless := by
  induction type with
  | nonNull inner ih => exact ih ht
  | list item _ =>
    rw [of]
    split
    · rfl
    · exact ht
  | resolved definition => exact nodeless_ofNamed h site content ht
  | late name =>
    rw [of]
    split
    · next hv => exact nodeless_ofNamed h site content (Schema.nodeless_visibleType? h hv)
    · rfl

end Shaped

end GraphQL
