import GraphQL.Execution.Site
import GraphQL.Fault
import GraphQL.Request.Gathering

/-!
# Tasks

The work that an execution has still to do, as a tree. Its leaves are pieces of work, each of
which takes one step at a time; siblings are done one after another or together. Siblings have the
outcome of the first of them that ended in a fault, as soon as every sibling before it is known to
have succeeded; until then the others go on.
-/

namespace GraphQL

/-- What is done with a value once it has settled: it is completed at its site, or it stands for an
object of a type whose selections are executed next. -/
inductive Purpose where
  | complete
  | enter (type : ObjectDef)

def Purpose.isAuthorizing : Purpose → Bool
  | complete => false
  | enter _ => true

/-- How far a deferred value has come. It holds a permit when it has started and while it sleeps;
until then it has a ticket, and permits go to the smallest ticket first. -/
inductive Progress where
  | queued (ticket : Nat)
  | started
  | asleep (wake : Nat)

/-- What is done next for a field that is being prepared: its type is recorded, it is left out if
its object is seen to have collapsed, and its resolver is called. Other work may take steps in
between. -/
inductive Phase where
  | declare
  | check
  | call
  deriving DecidableEq

/-- The fields of an object that are prepared wait for the others, unless each is prepared and
completed on its own; the phase is that of the next field to be prepared. A value that has settled
is resumed, and what is no null there is completed by the declared type of its site. -/
inductive Work where
  | select (frame : ObjectFrame) (selections : List Selection) (serial : Bool)
  | prepare (frame : ObjectFrame) (phase : Phase) (groups : List FieldGroup)
    (prepared : List (Site × Resolution))
  | field (frame : ObjectFrame) (phase : Phase) (group : FieldGroup)
  | settle (site : Site) (purpose : Purpose) (resolution : Resolution)
  | await (site : Site) (purpose : Purpose) (progress : Progress) (stages : List Stage)
    (value : FieldValue)
  | resume (site : Site) (purpose : Purpose) (value : FieldValue)
  | complete (site : Site) (content : Content)

inductive Task where
  | done
  | fault (fault : Fault)
  | work (work : Work)
  | serial (tasks : List Task)
  | together (tasks : List Task)

/-- Which sibling to turn to at each level, from the root of the tree down. -/
abbrev Address := List Nat

namespace Work

def holdsPermit : Work → Bool
  | await _ _ .started _ _ => true
  | await _ _ (.asleep _) _ _ => true
  | _ => false

def ticket? : Work → Option Nat
  | await _ _ (.queued ticket) _ _ => some ticket
  | _ => none

def wake? : Work → Option Nat
  | await _ _ (.asleep wake) _ _ => some wake
  | _ => none

end Work

namespace Task

def outcome? : Task → Option (Except Fault Unit)
  | done => some (.ok ())
  | fault raised => some (.error raised)
  | _ => none

/-- The outcome of siblings, by their order and not by when they ended: that of the first fault,
once every sibling before it has succeeded. -/
def verdict : List Task → Option (Except Fault Unit)
  | [] => some (.ok ())
  | task :: rest =>
    match task.outcome? with
    | some (.ok ()) => verdict rest
    | some (.error raised) => some (.error raised)
    | none => none

/-- Siblings that have an outcome, or what they are until then. -/
def siblings (unfinished : List Task → Task) (tasks : List Task) : Task :=
  match verdict tasks with
  | some (.ok ()) => done
  | some (.error raised) => fault raised
  | none => unfinished tasks

def inOrder (tasks : List Task) : Task := siblings serial tasks

def joined (tasks : List Task) : Task := siblings together tasks

/-- Siblings below an object or list at a depth: together if the depth is below the limit. -/
def dispatch (limit depth : Nat) (tasks : List Task) : Task :=
  if depth < limit then joined tasks else inOrder tasks

mutual

/-- The pieces of work that are under way, with their addresses, from left to right: of siblings
that are done one after another, those of the first that has not ended. -/
def frontier : Task → List (Address × Work)
  | done => []
  | fault _ => []
  | work piece => [([], piece)]
  | serial tasks => frontierOfFirst 0 tasks
  | together tasks => frontierOfAll 0 tasks

/-- The pieces of work of the first sibling that has not succeeded. -/
def frontierOfFirst (place : Nat) : List Task → List (Address × Work)
  | [] => []
  | done :: rest => frontierOfFirst (place + 1) rest
  | task :: _ => (frontier task).map fun entry => (place :: entry.1, entry.2)

def frontierOfAll (place : Nat) : List Task → List (Address × Work)
  | [] => []
  | task :: rest =>
    ((frontier task).map fun entry => (place :: entry.1, entry.2)) ++
      frontierOfAll (place + 1) rest

end

def work? (address : Address) (task : Task) : Option Work :=
  (task.frontier.find? fun entry => entry.1 = address).map Prod.snd

/-- Puts a task in place of the one at an address. -/
def replace : Address → Task → Task → Task
  | [], _, next => next
  | place :: address, serial tasks, next =>
    inOrder (tasks.modify place fun task => replace address task next)
  | place :: address, together tasks, next =>
    joined (tasks.modify place fun task => replace address task next)
  | _ :: _, task, _ => task

end Task

end GraphQL
