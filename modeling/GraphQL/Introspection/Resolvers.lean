import GraphQL.Introspection.Description
import GraphQL.Resolver.Property

/-!
# Introspection resolvers

The answers to the introspection fields of an object, and the resolvers of those fields of
`__Type` that list what belongs to a type. The value of a `__Type` object is a description, so
these resolvers look the type up again by its name; a wrapped type has no name and lists nothing.

A standard registry holds these resolvers and falls back to the property resolver, which reads
all other fields off the descriptions.
-/

namespace GraphQL

namespace Introspection

/-- The error of an introspection field where introspection is not enabled. -/
def disabledError : ResponseError :=
  ({ message := "GraphQL introspection is not allowed" } : ResponseError).withCode
    "INTROSPECTION_DISABLED"

/-- The answer to an introspection field of an object. The name of the object's type is given
even where introspection is not enabled. -/
def answer (schema : Schema) (context : Context) (enabled : Bool) (objectType : TypeDef)
    (args : ResolverArgs) : MetaField → FieldValue
  | .typename => .value (.str objectType.name)
  | .schema =>
    if enabled then .value (describeSchema schema context) else .error disabledError
  | .type =>
    if enabled then
      .value (describeNamed schema context ((args.get? "name").bind Json.asText?))
    else .error disabledError

/-- A resolver that lists what belongs to the type that a description stands for. -/
def listing (describe : Schema → Context → ResolverArgs → TypeDef → Option (List Json)) :
    Resolver where
  resolve parent args context info :=
    let described := do
      let schema ← info.schema
      let name ← (parent.member? "name").bind Json.asText?
      let type ← schema.visibleType? context name
      describe schema context args type
    .ready (.value (match described with
      | some items => .arr items
      | none => .null))
  builtIn := true

/-- The value of the argument that admits deprecated items. -/
def deprecatedToo (args : ResolverArgs) : Bool :=
  ((args.get? "includeDeprecated").bind Json.asBool?).getD false

/-- The fields of `__Type` that list what belongs to a type. -/
def listings : List (String × Resolver) :=
  [("fields", listing fun schema _ args type => describeFields schema (deprecatedToo args) type),
    ("interfaces", listing fun schema context _ type => describeInterfaces schema context type),
    ("possibleTypes",
      listing fun schema context _ type => describePossibleTypes schema context type),
    ("enumValues", listing fun _ _ args type => describeEnumValues (deprecatedToo args) type),
    ("inputFields", listing fun schema _ _ type => describeInputFields schema type)]

end Introspection

/-- The registry from which an application starts. -/
def Registry.standard : Registry :=
  Introspection.listings.foldl
    (fun registry listing => registry.register "__Type" listing.1 listing.2)
    { fallback := some Property.resolver }

end GraphQL
