import GraphQL.Execution.Task

/-!
# Joining siblings

How siblings that are done together come to an outcome. Their outcomes come in in any order; they
are held, each at the place of its sibling, and taken in the order of the siblings by a cursor that
stops where one is still missing. A fault that is taken ends them all.
-/

namespace GraphQL

/-- What a task ends in. -/
abbrev Outcome := Except Fault Unit

/-- The outcomes of siblings as they come in. So many siblings are still running, and `next` is the
place of the one whose outcome is taken next. -/
structure Intake where
  held : List (Option Outcome)
  running : Nat
  next : Nat := 0

namespace Intake

def start (count : Nat) : Intake := { held := List.replicate count none, running := count }

def receive (intake : Intake) (arrival : Outcome × Nat) : Intake :=
  { intake with
    held := intake.held.set arrival.2 (some arrival.1)
    running := intake.running - 1 }

def advance (intake : Intake) : Intake :=
  { intake with held := intake.held.set intake.next none, next := intake.next + 1 }

/-- Takes the outcomes that are there, from the cursor on, up to a fault. -/
def drain (intake : Intake) : Except Fault Intake :=
  match _found : intake.held[intake.next]? with
  | some (some (.ok ())) => intake.advance.drain
  | some (some (.error raised)) => .error raised
  | some none => .ok intake
  | none => .ok intake
termination_by intake.held.length - intake.next
decreasing_by
  have hnext := (List.getElem?_eq_some_iff.mp _found).1
  simp only [advance, List.length_set]
  omega

/-- What has come of the siblings after some of them have ended. They break off if an outcome is
missing though no sibling is left to end. -/
inductive Status where
  | waiting (intake : Intake)
  | broke (intake : Intake)
  | returned (outcome : Outcome)

/-- Receives outcomes in the order of their arrival until all have been taken or a fault has. -/
def collect (intake : Intake) : List (Outcome × Nat) → Status
  | [] =>
    if intake.next < intake.held.length then
      if intake.running = 0 then .broke intake else .waiting intake
    else .returned (.ok ())
  | arrival :: rest =>
    if intake.next < intake.held.length then
      match (intake.receive arrival).drain with
      | .ok later => later.collect rest
      | .error raised => .returned (.error raised)
    else .returned (.ok ())

end Intake

def Task.ended : Outcome → Task
  | .ok () => done
  | .error raised => fault raised

/-- What siblings that go on together are when their outcomes have come in so far. -/
def Intake.Status.task (tasks : List Task) : Status → Task
  | returned outcome => .ended outcome
  | waiting _ => .together tasks
  | broke _ => .together tasks

end GraphQL
