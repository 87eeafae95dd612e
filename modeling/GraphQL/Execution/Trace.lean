import GraphQL.Execution.State

/-!
# Traces

What an execution shows of its history: the calls of the application's resolvers and authorizers,
the pauses of its deferred values, and the spans of the fields. The resolvers of this library do
not appear, and what an authorizer does appears without a path.
-/

namespace GraphQL

/-- Authorizers and resolvers are called; pauses begin and end. -/
inductive TraceKind where
  | auth
  | call
  | wait
  | settle

namespace TraceKind

def text : TraceKind → String
  | auth => "auth"
  | call => "call"
  | wait => "wait"
  | settle => "settle"

/-- The place of a kind among lines of one time and path. -/
def rank : TraceKind → Nat
  | auth => 0
  | call => 1
  | wait => 2
  | settle => 3

end TraceKind

structure TraceLine where
  time : Nat
  path : String
  kind : TraceKind
  subject : String := ""

namespace TraceLine

protected def compare (a b : TraceLine) : Ordering :=
  (compare a.time b.time).then <| (compare a.path b.path).then <|
    (compare a.kind.rank b.kind.rank).then (compare a.subject b.subject)

/-- The path under which a deferred value appears. -/
def pathText (path : Path) (authorizing : Bool) : String := if authorizing then "" else path.text

def ofEvent? (time : Nat) : Event → Option TraceLine
  | .called path parentType fieldName _ resolver source =>
    let subject := Registry.fieldKey parentType fieldName
    if resolver.builtIn then none
    else some
      { time, path := path.text, kind := .call
        subject := match source with
          | .registered => subject
          | .fallback => "default " ++ subject }
  | .authorized _ typeName _ => some { time, path := "", kind := .auth, subject := typeName }
  | .slept path authorizing => some { time, path := pathText path authorizing, kind := .wait }
  | .woke path authorizing => some { time, path := pathText path authorizing, kind := .settle }
  | _ => none

end TraceLine

structure Span where
  path : String
  parentType : String
  fieldName : String

namespace Span

protected def compare (a b : Span) : Ordering :=
  (compare a.path b.path).then <| (compare a.parentType b.parentType).then
    (compare a.fieldName b.fieldName)

def ofEvent? : Event → Option Span
  | .opened path parentType fieldName => some { path := path.text, parentType, fieldName }
  | _ => none

end Span

namespace Trace

/-- The lines of a history in the order in which things happened. -/
def lines (history : List (Nat × Event)) : List TraceLine :=
  history.filterMap fun entry => TraceLine.ofEvent? entry.1 entry.2

def sortedLines (history : List (Nat × Event)) : List TraceLine :=
  (lines history).mergeSort fun a b => (TraceLine.compare a b).isLE

def sortedSpans (history : List (Nat × Event)) : List Span :=
  (history.filterMap fun entry => Span.ofEvent? entry.2).mergeSort fun a b =>
    (Span.compare a b).isLE

end Trace

end GraphQL
