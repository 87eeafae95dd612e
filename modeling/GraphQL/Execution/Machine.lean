import GraphQL.Execution.Completion
import GraphQL.Execution.Preparation

/-!
# The machine

How an execution goes on. A machine is the work still to do and the state reached; it moves when a
piece of work takes a step or when time passes. Every interleaving of the work is a sequence of
moves. The machine's own choice is the first piece of work from the left that can take a step; time
passes when there is none.

A deferred value needs a permit from its start until it settles, and no longer. Permits are given
in the order in which they were asked for; how many are in use and to whom the others are due is
read off the work.
-/

namespace GraphQL

namespace Work

/-- A deferred value after it has gone through its first stage. -/
def passStage (site : Site) (purpose : Purpose) (stage : Stage) (rest : List Stage)
    (value : FieldValue) (state : State) : Work × State :=
  match stage with
  | .pause milliseconds =>
    (.await site purpose (.asleep (state.clock + milliseconds)) rest value,
      state.note (.slept site.path purpose.isAuthorizing))
  | .report errors =>
    let collector := if purpose.isAuthorizing then none else site.field.collector
    (.await site purpose .started rest value, state.reportTo collector errors)

def step (env : Environment) (state : State) : Work → Task × State
  | select frame selections serial => Preparation.select env frame selections serial state
  | prepare frame phase groups prepared => Preparation.prepare env frame phase groups prepared state
  | field frame phase group => Preparation.prepareAlone env frame phase group state
  | settle site purpose (.ready value) =>
    (.work (.resume site purpose value),
      state.note (.settled site.path purpose.isAuthorizing value))
  | settle site purpose (.deferred stages value) =>
    (.work (.await site purpose (.queued state.tickets) stages value),
      { state with tickets := state.tickets + 1 })
  | await site purpose (.queued _) stages value =>
    (.work (.await site purpose .started stages value),
      state.note (.started site.path purpose.isAuthorizing))
  | await site purpose (.asleep _) stages value =>
    (.work (.await site purpose .started stages value),
      state.note (.woke site.path purpose.isAuthorizing))
  | await site purpose .started [] value =>
    (.work (.resume site purpose value),
      state.note (.settled site.path purpose.isAuthorizing value))
  | await site purpose .started (stage :: rest) value =>
    let (work, state) := passStage site purpose stage rest value state
    (.work work, state)
  | resume site purpose value => Completion.resume site purpose value state
  | complete site content => Completion.complete env site content state site.type

end Work

structure Machine where
  task : Task
  state : State := {}

/-- A piece of work takes a step, or time passes until the next sleeping value wakes. -/
inductive Move where
  | advance (address : Address)
  | pass

namespace Machine

variable (env : Environment)

def works (machine : Machine) : List Work := machine.task.frontier.map Prod.snd

def permitsInUse (machine : Machine) : Nat := machine.works.countP Work.holdsPermit

/-- How many of the values that wait for a permit asked for it before a ticket was drawn. -/
def ahead (machine : Machine) (ticket : Nat) : Nat :=
  (machine.works.filterMap Work.ticket?).countP fun other => other < ticket

/-- True if there is a permit for a ticket: one that is neither in use nor due to an earlier
ticket. -/
def isEntitled (machine : Machine) (ticket : Nat) : Bool :=
  env.config.maxConcurrentResolvers == 0 ||
    machine.permitsInUse + machine.ahead ticket < env.config.maxConcurrentResolvers

def canStep (machine : Machine) : Work → Bool
  | .await _ _ (.queued ticket) _ _ => machine.isEntitled env ticket
  | .await _ _ (.asleep wake) _ _ => wake ≤ machine.state.clock
  | _ => true

def nextWake? (machine : Machine) : Option Nat :=
  (machine.works.filterMap Work.wake?).min?

/-- The machine after a move, if the move is possible. -/
def perform? (machine : Machine) : Move → Option Machine
  | .advance address =>
    match machine.task.work? address with
    | some work =>
      if machine.canStep env work then
        let (next, state) := work.step env machine.state
        some { task := machine.task.replace address next, state }
      else none
    | none => none
  | .pass =>
    machine.nextWake?.map fun wake =>
      { machine with state := { machine.state with clock := max machine.state.clock wake } }

def choose? (machine : Machine) : Option Move :=
  match machine.task.frontier.find? fun entry => machine.canStep env entry.2 with
  | some (address, _) => some (.advance address)
  | none => machine.nextWake?.map fun _ => .pass

def next? (machine : Machine) : Option Machine :=
  (machine.choose? env).bind (machine.perform? env)

/-- Moves until no move is left. Nothing if there is one left after as many moves as given. -/
def run (env : Environment) : Nat → Machine → Option Machine
  | 0, machine => if (machine.next? env).isNone then some machine else none
  | moves + 1, machine =>
    match machine.next? env with
    | some next => run env moves next
    | none => some machine

end Machine

end GraphQL
