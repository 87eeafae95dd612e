import GraphQL.Response.Encoding

/-!
# Configuration of an execution

Siblings run together below an object or list whose path is shorter than the parallel depth. No more
values are awaited at once than there may be concurrent resolvers; zero stands for no bound.
-/

namespace GraphQL

structure Config where
  maxParallelDepth : Nat := 10
  maxConcurrentResolvers : Nat := 100
  tracing : Bool := false
  introspection : Bool := true
  pruneCollapsedSubtrees : Bool := false

namespace Config

def toJson (config : Config) : Json :=
  .obj [("max_parallel_depth", .int config.maxParallelDepth),
    ("max_concurrent_resolvers", .int config.maxConcurrentResolvers),
    ("tracing", .bool config.tracing),
    ("introspection", .bool config.introspection),
    ("prune_collapsed_subtrees", .bool config.pruneCollapsedSubtrees)]

/-- Sets the setting of a name. Nothing if the value does not fit the setting; a name that is no
setting is ignored. -/
def set? (config : Config) (name : String) (value : Json) : Option Config :=
  match name with
  | "max_parallel_depth" => value.asSize?.map fun depth =>
    { config with maxParallelDepth := depth }
  | "max_concurrent_resolvers" => value.asSize?.map fun limit =>
    { config with maxConcurrentResolvers := limit }
  | "tracing" => value.asBool?.map fun enabled => { config with tracing := enabled }
  | "introspection" => value.asBool?.map fun enabled => { config with introspection := enabled }
  | "prune_collapsed_subtrees" => value.asBool?.map fun enabled =>
    { config with pruneCollapsedSubtrees := enabled }
  | _ => some config

def names : List String :=
  ["max_parallel_depth", "max_concurrent_resolvers", "tracing", "introspection",
    "prune_collapsed_subtrees"]

/-- Reads an object, or a list of the settings in their order; what is missing keeps its
default. -/
def ofJson? : Json → Option Config
  | .obj members => members.foldlM (fun config member => config.set? member.1 member.2) {}
  | .arr items =>
    if items.length ≤ names.length then
      (names.zip items).foldlM (fun config setting => config.set? setting.1 setting.2) {}
    else none
  | _ => none

def summary (config : Config) : String :=
  "ExecutorConfig \x7b max_parallel_depth: " ++ toString config.maxParallelDepth ++
    ", max_concurrent_resolvers: " ++ toString config.maxConcurrentResolvers ++
    ", tracing: " ++ toString config.tracing ++
    ", introspection: " ++ toString config.introspection ++
    ", prune_collapsed_subtrees: " ++ toString config.pruneCollapsedSubtrees ++ " \x7d"

end Config

end GraphQL
