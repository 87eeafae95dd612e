import GraphQL.Resolver.Property

/-!
# Plans

Resolvers and authorizers given as data: what the value is made of, which errors are reported on
the way and how long it takes. A plan is evaluated with the value of the parent object, the
arguments, the context and what is known about the field. All of it is known at once, so a pause
delays the value and the reports inside it but does not change them.
-/

namespace GraphQL

/-- An argument that is required must be there and have the shape; one that is read is null
otherwise. `standard` is the property of the parent named like the field. `switch` takes the first
case whose value equals what a plan gives. -/
inductive Plan where
  | value (value : Json)
  | parent
  | property (name : String)
  | argument (name : String)
  | arguments
  | argumentsText
  | require (name : String) (shape : Shape)
  | read (name : String) (shape : Shape)
  | contextEntry (name : String)
  | «variable» (name : String)
  | info
  | node
  | collector
  | standard
  | fail (error : ResolverError)
  | error (error : ResponseError)
  | errors (errors : List ResponseError)
  | skip
  | list (items : List Plan)
  | delay (milliseconds : Nat) (next : Plan)
  | collect (errors : List ResponseError) (next : Plan)
  | switch (on : Plan) (cases : List (Json × Plan)) (otherwise : Plan)

namespace Plan

structure Scope where
  parent : Json
  args : ResolverArgs := {}
  context : Context := {}
  info : ResolverInfo

def infoValue (info : ResolverInfo) : Json :=
  .obj [("field_name", .str info.fieldName), ("return_type", .str info.returnType),
    ("parent_type", .str info.parentType), ("path", .str info.path.text),
    ("has_schema", .bool info.schema.isSome)]

def nodeValue (node : FieldNode) : Json :=
  .obj [("key", .str node.responseKey), ("name", .str node.name),
    ("alias", Json.ofText? node.aliasName),
    ("args", .arr (node.arguments.map fun argument => .str argument.1)),
    ("directives", .arr (node.directives.map fun directive => .str directive.name)),
    ("selections", .int node.selections.length),
    ("at", Json.ofText? (node.position.map Position.text))]

def ofOption (value : Option Json) : Reply := .ready (.value (value.getD .null))

/-- A value that comes later, together with what is reported on the way. -/
def postpone (stages : List Stage) (reply : Reply) : Reply where
  resolution :=
    .deferred
      (stages ++ (if reply.reports.isEmpty then [] else [.report reply.reports]) ++
        reply.resolution.stages)
      reply.resolution.settled

/-- The value that a reply gives in the end; null if it gives no ordinary value. -/
def settledValue (reply : Reply) : Json :=
  match reply.resolution.settled with
  | .value given => given
  | _ => .null

mutual

def reply (scope : Scope) : Plan → Reply
  | value given => .ready (.value given)
  | parent => .ready (.value scope.parent)
  | property name => ofOption (scope.parent.member? name)
  | argument name => ofOption (scope.args.get? name)
  | arguments => .ready (.value (.obj scope.args.values))
  | argumentsText => .ready (.value (.str (Json.obj scope.args.values).render))
  | require name shape => .ofResult (scope.args.require name shape)
  | read name shape => ofOption (scope.args.getAs? name shape)
  | contextEntry name => ofOption (scope.context.get? name)
  | «variable» name => ofOption (scope.context.binding? name)
  | info => .ready (.value (infoValue scope.info))
  | node => ofOption (scope.args.node.map nodeValue)
  | collector => ofOption (scope.args.collector.map fun collector => .str collector.path.text)
  | standard => .ofResult (Property.read scope.parent scope.info.fieldName)
  | fail cause => .ready (.error cause.toResponseError)
  | error raised => .ready (.error raised)
  | errors raised => .ready (.errors raised)
  | skip => .ready .skip
  | list items =>
    let elements := replies scope items
    { reports := elements.flatMap Reply.reports
      resolution := .ready (.list (elements.map Reply.resolution)) }
  | delay milliseconds next => postpone [.pause milliseconds] (reply scope next)
  | collect raised next =>
    let later := reply scope next
    { later with reports := raised ++ later.reports }
  | switch on cases otherwise =>
    let tested := reply scope on
    let chosen := (caseReply scope (settledValue tested) cases).getD (reply scope otherwise)
    { chosen with reports := tested.reports ++ chosen.reports }

def replies (scope : Scope) : List Plan → List Reply
  | [] => []
  | plan :: rest => reply scope plan :: replies scope rest

def caseReply (scope : Scope) (tested : Json) : List (Json × Plan) → Option Reply
  | [] => none
  | (expected, plan) :: rest =>
    if expected.same tested then some (reply scope plan) else caseReply scope tested rest

end

def toResolver (plan : Plan) : Resolver where
  resolve parent args context info := plan.reply { parent, args, context, info }

/-- The resolver that follows a plan and never settles at once. -/
def toDeferredResolver (plan : Plan) : Resolver where
  resolve parent args context info := postpone [] (plan.reply { parent, args, context, info })

/-- The authorizer that follows a plan. It has no collector, and its reports are dropped. -/
def toAuthorizer (plan : Plan) : Authorizer := fun type value context =>
  (plan.reply
    { parent := value, context, info := { fieldName := "", parentType := type.name } }).resolution

end Plan

end GraphQL
