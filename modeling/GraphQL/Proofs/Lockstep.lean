import GraphQL.Proofs.Refinement
import Mathlib.Data.List.Forall2

/-!
# Machines in lockstep

Two machines that do related work on related states, whose clocks agree. Relations between pieces of
work and between states are kept in lockstep if related pieces have made the same progress, and if a
step of both takes related states to related ones and leaves related work to do. Such machines have
the same moves at all times, and end together, whoever chooses the moves.
-/

namespace GraphQL

section Lists

variable {α β γ : Type} {S : α → β → Prop} {xs : List α} {ys : List β}

theorem map_eq_of_forall₂ (h : List.Forall₂ S xs ys) {f : α → γ} {g : β → γ}
    (hf : ∀ {x y}, S x y → f x = g y) : xs.map f = ys.map g := by
  induction h with
  | nil => rfl
  | cons hx _ ih => rw [List.map_cons, List.map_cons, hf hx, ih]

theorem forall₂_find? (h : List.Forall₂ S xs ys) {p : α → Bool} {q : β → Bool}
    (hp : ∀ {x y}, S x y → p x = q y) : Option.Rel S (xs.find? p) (ys.find? q) := by
  induction h with
  | nil => exact .none
  | @cons x y _ _ hx _ ih =>
    rw [List.find?_cons, List.find?_cons, hp hx]
    cases q y with
    | true => exact .some hx
    | false => exact ih

theorem forall₂_filter (h : List.Forall₂ S xs ys) {p : α → Bool} {q : β → Bool}
    (hp : ∀ {x y}, S x y → p x = q y) : List.Forall₂ S (xs.filter p) (ys.filter q) := by
  induction h with
  | nil => exact .nil
  | @cons x y _ _ hx _ ih =>
    rw [List.filter_cons, List.filter_cons, hp hx]
    split
    · exact .cons hx ih
    · exact ih

theorem forall₂_filterMap {f : γ → Option α} {g : γ → Option β}
    (hf : ∀ z, Option.Rel S (f z) (g z)) (zs : List γ) :
    List.Forall₂ S (zs.filterMap f) (zs.filterMap g) := by
  induction zs with
  | nil => exact .nil
  | cons z rest ih =>
    have hz := hf z
    rw [List.filterMap_cons, List.filterMap_cons]
    generalize f z = x, g z = y at hz
    cases hz with
    | none => exact ih
    | some hx => exact .cons hx ih

theorem forall₂_modify (h : List.Forall₂ S xs ys) {f : α → α} {g : β → β}
    (hf : ∀ {x y}, S x y → S (f x) (g y)) (place : Nat) :
    List.Forall₂ S (xs.modify place f) (ys.modify place g) := by
  induction h generalizing place with
  | nil => cases place <;> exact .nil
  | cons hx hrest ih =>
    cases place with
    | zero => exact .cons (hf hx) hrest
    | succ place => exact .cons hx (ih place)

end Lists

namespace Progress

def holdsPermit : Progress → Bool
  | queued _ => false
  | _ => true

def ticket? : Progress → Option Nat
  | queued ticket => some ticket
  | _ => none

def wake? : Progress → Option Nat
  | asleep wake => some wake
  | _ => none

end Progress

namespace Work

/-- How far a deferred value has come. -/
def progress? : Work → Option Progress
  | await _ _ progress _ _ => some progress
  | _ => none

theorem holdsPermit_eq (piece : Work) :
    piece.holdsPermit = piece.progress?.any Progress.holdsPermit := by
  cases piece with
  | await _ _ progress => cases progress <;> rfl
  | _ => rfl

theorem ticket?_eq (piece : Work) : piece.ticket? = piece.progress?.bind Progress.ticket? := by
  cases piece with
  | await _ _ progress => cases progress <;> rfl
  | _ => rfl

theorem wake?_eq (piece : Work) : piece.wake? = piece.progress?.bind Progress.wake? := by
  cases piece with
  | await _ _ progress => cases progress <;> rfl
  | _ => rfl

end Work

namespace Task

/-- Trees of tasks that differ in their pieces of work only, and have related ones. -/
inductive Alike (R : Work → Work → Prop) : Task → Task → Prop where
  | done : Alike R done done
  | fault (raised : Fault) : Alike R (fault raised) (fault raised)
  | work {piece other : Work} (h : R piece other) : Alike R (work piece) (work other)
  | serial {tasks others : List Task} (hl : tasks.length = others.length)
      (each : ∀ pair ∈ tasks.zip others, Alike R pair.1 pair.2) :
      Alike R (serial tasks) (serial others)
  | together {tasks others : List Task} (hl : tasks.length = others.length)
      (each : ∀ pair ∈ tasks.zip others, Alike R pair.1 pair.2) :
      Alike R (together tasks) (together others)

variable {R : Work → Work → Prop} {task task' : Task} {tasks others : List Task}

/-- Lists are related item by item if they are as long as each other and related where they are
zipped. -/
theorem forall₂_of_zip {S : Task → Task → Prop} (hl : tasks.length = others.length)
    (each : ∀ pair ∈ tasks.zip others, S pair.1 pair.2) : List.Forall₂ S tasks others :=
  List.forall₂_iff_zip.mpr ⟨hl, fun hm => each _ hm⟩

theorem Alike.serial_of (h : List.Forall₂ (Alike R) tasks others) :
    Alike R (.serial tasks) (.serial others) := by
  obtain ⟨hl, each⟩ := List.forall₂_iff_zip.mp h
  exact .serial hl fun pair hm => each hm

theorem Alike.together_of (h : List.Forall₂ (Alike R) tasks others) :
    Alike R (.together tasks) (.together others) := by
  obtain ⟨hl, each⟩ := List.forall₂_iff_zip.mp h
  exact .together hl fun pair hm => each hm

theorem Alike.outcome?_eq (h : Alike R task task') : task.outcome? = task'.outcome? := by
  cases h <;> rfl

theorem verdict_eq (h : List.Forall₂ (Alike R) tasks others) : verdict tasks = verdict others := by
  induction h with
  | nil => rfl
  | cons hx _ ih => rw [verdict, verdict, hx.outcome?_eq, ih]

theorem Alike.siblings (h : List.Forall₂ (Alike R) tasks others) {unfinished : List Task → Task}
    (hu : Alike R (unfinished tasks) (unfinished others)) :
    Alike R (Task.siblings unfinished tasks) (Task.siblings unfinished others) := by
  rw [Task.siblings, Task.siblings, verdict_eq h]
  rcases verdict others with _ | (raised | _)
  · exact hu
  · exact .fault raised
  · exact .done

theorem Alike.inOrder (h : List.Forall₂ (Alike R) tasks others) :
    Alike R (Task.inOrder tasks) (Task.inOrder others) :=
  .siblings h (.serial_of h)

theorem Alike.joined (h : List.Forall₂ (Alike R) tasks others) :
    Alike R (Task.joined tasks) (Task.joined others) :=
  .siblings h (.together_of h)

theorem Alike.dispatch (h : List.Forall₂ (Alike R) tasks others) (limit depth : Nat) :
    Alike R (Task.dispatch limit depth tasks) (Task.dispatch limit depth others) := by
  unfold Task.dispatch
  split
  · exact .joined h
  · exact .inOrder h

theorem Alike.symm (h : Alike R task task') : Alike (flip R) task' task := by
  induction h with
  | done => exact .done
  | fault raised => exact .fault raised
  | work h => exact .work h
  | serial hl _ ih => exact .serial_of (forall₂_of_zip hl ih).flip
  | together hl _ ih => exact .together_of (forall₂_of_zip hl ih).flip

mutual

/-- A tree is like itself if every piece of work is related to itself. -/
theorem Alike.refl (hr : ∀ piece, R piece piece) : ∀ task, Alike R task task
  | .done => .done
  | .fault raised => .fault raised
  | .work piece => .work (hr piece)
  | .serial tasks => .serial_of (alike_self hr tasks)
  | .together tasks => .together_of (alike_self hr tasks)

theorem alike_self (hr : ∀ piece, R piece piece) : ∀ tasks, List.Forall₂ (Alike R) tasks tasks
  | [] => .nil
  | task :: rest => .cons (Alike.refl hr task) (alike_self hr rest)

end

theorem alike_and_all {P : Work → Prop} (hl : tasks.length = others.length)
    (each : ∀ pair ∈ tasks.zip others, (∀ piece ∈ Strand.works pair.1.strands, P piece) →
      Alike (fun piece other => R piece other ∧ P piece) pair.1 pair.2)
    (hp : ∀ piece ∈ Strand.works (strandsOfAll tasks), P piece) :
    List.Forall₂ (Alike fun piece other => R piece other ∧ P piece) tasks others := by
  induction tasks generalizing others with
  | nil =>
    rw [List.length_eq_zero_iff.mp hl.symm]
    exact .nil
  | cons task rest ih =>
    cases others with
    | nil => cases hl
    | cons other others =>
      rw [strandsOfAll, Strand.works_append] at hp
      refine .cons ?_ (ih (Nat.succ.inj hl) (fun pair hm => each pair (List.mem_cons_of_mem _ hm))
        fun piece hm => hp piece (List.mem_append_right _ hm))
      exact each (task, other) List.mem_cons_self fun piece hm =>
        hp piece (List.mem_append_left _ hm)

/-- What holds of all work of the first tree can be added to the relation. -/
theorem Alike.and_works (h : Alike R task task') {P : Work → Prop}
    (hp : ∀ piece ∈ Strand.works task.strands, P piece) :
    Alike (fun piece other => R piece other ∧ P piece) task task' := by
  induction h with
  | done => exact .done
  | fault raised => exact .fault raised
  | work h => exact .work ⟨h, hp _ (List.mem_singleton_self _)⟩
  | serial hl _ ih => exact .serial_of (alike_and_all hl ih hp)
  | together hl _ ih => exact .together_of (alike_and_all hl ih hp)

/-- Pieces of work at the same address. -/
def AlikeAt (R : Work → Work → Prop) (entry other : Address × Work) : Prop :=
  entry.1 = other.1 ∧ R entry.2 other.2

theorem alikeAt_below (place : Nat) {entries others : List (Address × Work)}
    (h : List.Forall₂ (AlikeAt R) entries others) :
    List.Forall₂ (AlikeAt R) (entries.map fun entry => (place :: entry.1, entry.2))
      (others.map fun entry => (place :: entry.1, entry.2)) := by
  exact List.rel_map (fun entry other hentry => ⟨congrArg (place :: ·) hentry.1, hentry.2⟩) h

theorem alikeAt_first (h : List.Forall₂ (fun task other => Alike R task other ∧
      List.Forall₂ (AlikeAt R) task.frontier other.frontier) tasks others) (place : Nat) :
    List.Forall₂ (AlikeAt R) (frontierOfFirst place tasks) (frontierOfFirst place others) := by
  induction h generalizing place with
  | nil => exact .nil
  | @cons task other rest others hx _ ih =>
    -- what has succeeded on one side has on the other, so both turn to the same sibling
    by_cases hd : task = Task.done
    · subst hd
      cases hx.1
      exact ih (place + 1)
    · have hd' : other ≠ Task.done := by
        rintro rfl
        cases hx.1
        exact hd rfl
      rw [frontierOfFirst_cons hd, frontierOfFirst_cons hd']
      exact alikeAt_below place hx.2

theorem alikeAt_all (h : List.Forall₂ (fun task other => Alike R task other ∧
      List.Forall₂ (AlikeAt R) task.frontier other.frontier) tasks others) (place : Nat) :
    List.Forall₂ (AlikeAt R) (frontierOfAll place tasks) (frontierOfAll place others) := by
  induction h generalizing place with
  | nil => exact .nil
  | cons hx _ ih => exact List.rel_append (alikeAt_below place hx.2) (ih (place + 1))

/-- Work is under way at the same addresses. -/
theorem Alike.frontier (h : Alike R task task') :
    List.Forall₂ (AlikeAt R) task.frontier task'.frontier := by
  induction h with
  | done => exact .nil
  | fault _ => exact .nil
  | work h => exact .cons ⟨rfl, h⟩ .nil
  | serial hl each ih =>
    rw [Task.frontier, Task.frontier]
    exact alikeAt_first (forall₂_of_zip hl fun pair hm => ⟨each pair hm, ih pair hm⟩) 0
  | together hl each ih =>
    rw [Task.frontier, Task.frontier]
    exact alikeAt_all (forall₂_of_zip hl fun pair hm => ⟨each pair hm, ih pair hm⟩) 0

theorem Alike.work? (h : Alike R task task') (address : Address) :
    Option.Rel R (task.work? address) (task'.work? address) := by
  have hfound : Option.Rel (AlikeAt R) (task.frontier.find? fun entry => entry.1 = address)
      (task'.frontier.find? fun entry => entry.1 = address) :=
    forall₂_find? h.frontier fun hentry => by rw [hentry.1]
  rw [Task.work?, Task.work?]
  generalize task.frontier.find? _ = found, task'.frontier.find? _ = found' at hfound
  cases hfound with
  | none => exact .none
  | some hentry => exact .some hentry.2

theorem Alike.replace (h : Alike R task task') {next next' : Task} (hn : Alike R next next')
    (address : Address) : Alike R (task.replace address next) (task'.replace address next') := by
  induction address generalizing task task' with
  | nil => exact hn
  | cons place address ih =>
    cases h with
    | done => exact .done
    | fault raised => exact .fault raised
    | work h => exact .work h
    | serial hl each => exact .inOrder (forall₂_modify (forall₂_of_zip hl each) ih place)
    | together hl each => exact .joined (forall₂_modify (forall₂_of_zip hl each) ih place)

end Task

/-- Related pieces of work go on in the same way from related states in two environments. -/
structure Lockstep (env env' : Environment) (Q : State → State → Prop) (R : Work → Work → Prop) :
    Prop where
  config : env.config = env'.config
  clock : ∀ {state state'}, Q state state' → state.clock = state'.clock
  pass : ∀ {state state'}, Q state state' → ∀ clock,
    Q { state with clock := clock } { state' with clock := clock }
  progress : ∀ {piece other}, R piece other → piece.progress? = other.progress?
  task : ∀ {piece other}, R piece other → ∀ {state state'}, Q state state' →
    Task.Alike R (piece.step env state).1 (other.step env' state').1
  state : ∀ {piece other}, R piece other → ∀ {state state'}, Q state state' →
    Q (piece.step env state).2 (other.step env' state').2

/-- What an execution has come to if it ends in this state. -/
def State.execution (state : State) : Execution where
  response := state.tree.response
  elapsed := state.clock
  history := state.history.reverse

namespace Machine

theorem result?_eq (machine : Machine) :
    machine.result? = machine.task.outcome?.map (Except.map fun _ => machine.state.execution) := rfl

/-- Whether a value that has come so far can go on. -/
def lets (env : Environment) (machine : Machine) : Progress → Bool
  | .queued ticket => machine.isEntitled env ticket
  | .started => true
  | .asleep wake => wake ≤ machine.state.clock

theorem canStep_eq (env : Environment) (machine : Machine) (piece : Work) :
    machine.canStep env piece = piece.progress?.all (machine.lets env) := by
  cases piece with
  | await _ _ progress => cases progress <;> rfl
  | _ => rfl

/-- Machines that do related work on related states. -/
structure Alike (Q : State → State → Prop) (R : Work → Work → Prop) (machine other : Machine) :
    Prop where
  task : Task.Alike R machine.task other.task
  state : Q machine.state other.state

variable {Q : State → State → Prop} {R : Work → Work → Prop} {machine other : Machine}

theorem Alike.symm (h : machine.Alike Q R other) : other.Alike (flip Q) (flip R) machine :=
  ⟨h.task.symm, h.state⟩

/-- What two executions have in common if their states are related when they end. -/
theorem Alike.read_eq {α : Type} {read : Execution → α} (h : machine.Alike Q R other)
    (hread : ∀ {state state'}, Q state state' → read state.execution = read state'.execution) :
    machine.result?.map (Except.map read) = other.result?.map (Except.map read) := by
  rw [result?_eq, result?_eq, h.task.outcome?_eq]
  cases other.task.outcome? with
  | none => rfl
  | some outcome =>
    cases outcome with
    | error raised => rfl
    | ok _ => exact congrArg (fun seen => some (Except.ok seen)) (hread h.state)

end Machine

namespace Lockstep

variable {env env' : Environment} {Q : State → State → Prop} {R : Work → Work → Prop}
variable {machine other : Machine}

theorem symm (h : Lockstep env env' Q R) : Lockstep env' env (flip Q) (flip R) where
  config := h.config.symm
  clock hq := (h.clock hq).symm
  pass hq := h.pass hq
  progress hr := (h.progress hr).symm
  task hr _ _ hq := (h.task hr hq).symm
  state hr _ _ hq := h.state hr hq

section Readings

variable (h : Lockstep env env' Q R) (hm : machine.Alike Q R other)

include h hm

/-- The values that are awaited have come equally far. -/
theorem progress_eq :
    machine.works.map Work.progress? = other.works.map Work.progress? := by
  rw [Machine.works, Machine.works, List.map_map, List.map_map]
  exact map_eq_of_forall₂ hm.task.frontier fun hentry => h.progress hentry.2

theorem filterMap_works_eq {α : Type} {read : Work → Option α} {reading : Progress → Option α}
    (hread : ∀ piece : Work, read piece = piece.progress?.bind reading) :
    machine.works.filterMap read = other.works.filterMap read := by
  have hmap := congrArg (List.filterMap fun progress => progress.bind reading) (h.progress_eq hm)
  rw [List.filterMap_map, List.filterMap_map] at hmap
  rw [funext hread]
  exact hmap

theorem permitsInUse_eq : machine.permitsInUse = other.permitsInUse := by
  have hcount := congrArg (List.countP fun progress => progress.any Progress.holdsPermit)
    (h.progress_eq hm)
  rw [List.countP_map, List.countP_map] at hcount
  rw [Machine.permitsInUse, Machine.permitsInUse, funext Work.holdsPermit_eq]
  exact hcount

theorem isEntitled_eq (ticket : Nat) :
    machine.isEntitled env ticket = other.isEntitled env' ticket := by
  rw [Machine.isEntitled, Machine.isEntitled, Machine.ahead, Machine.ahead, h.config,
    h.permitsInUse_eq hm, h.filterMap_works_eq hm Work.ticket?_eq]

theorem nextWake?_eq : machine.nextWake? = other.nextWake? := by
  rw [Machine.nextWake?, Machine.nextWake?, h.filterMap_works_eq hm Work.wake?_eq]

theorem lets_eq : machine.lets env = other.lets env' := by
  funext progress
  cases progress with
  | queued ticket => exact h.isEntitled_eq hm ticket
  | started => rfl
  | asleep wake => rw [Machine.lets, Machine.lets, h.clock hm.state]

theorem canStep_eq {piece piece' : Work} (hr : R piece piece') :
    machine.canStep env piece = other.canStep env' piece' := by
  rw [Machine.canStep_eq, Machine.canStep_eq, h.progress hr, h.lets_eq hm]

/-- The machines have the same moves, and are still in lockstep afterwards. -/
theorem perform? (move : Move) :
    Option.Rel (Machine.Alike Q R) (machine.perform? env move) (other.perform? env' move) := by
  cases move with
  | advance address =>
    rw [Machine.perform?, Machine.perform?]
    have hwork := hm.task.work? address
    generalize machine.task.work? address = found, other.task.work? address = found' at hwork
    cases hwork with
    | none => exact .none
    | @some piece piece' hr =>
      dsimp only
      rw [h.canStep_eq hm hr]
      split
      · exact .some ⟨hm.task.replace (h.task hr hm.state) address, h.state hr hm.state⟩
      · exact .none
  | pass =>
    rw [Machine.perform?, Machine.perform?, h.nextWake?_eq hm, h.clock hm.state]
    cases other.nextWake? with
    | none => exact .none
    | some wake => exact .some ⟨hm.task, h.pass hm.state _⟩

theorem choose?_eq : machine.choose? env = other.choose? env' := by
  have hfirst : Option.Rel (Task.AlikeAt R)
      (machine.task.frontier.find? fun entry => machine.canStep env entry.2)
      (other.task.frontier.find? fun entry => other.canStep env' entry.2) :=
    forall₂_find? hm.task.frontier fun hentry => h.canStep_eq hm hentry.2
  rw [Machine.choose?, Machine.choose?, h.nextWake?_eq hm]
  generalize machine.task.frontier.find? _ = found, other.task.frontier.find? _ = found' at hfirst
  cases hfirst with
  | none => rfl
  | some hentry => exact congrArg (fun address => some (Move.advance address)) hentry.1

theorem next? : Option.Rel (Machine.Alike Q R) (machine.next? env) (other.next? env') := by
  rw [Machine.next?, Machine.next?, h.choose?_eq hm]
  cases other.choose? env' with
  | none => exact .none
  | some move => exact h.perform? hm move

/-- The machines end together, by their own choices. -/
theorem run (moves : Nat) :
    Option.Rel (Machine.Alike Q R) (machine.run env moves) (other.run env' moves) := by
  induction moves generalizing machine other with
  | zero =>
    rw [Machine.run, Machine.run]
    have hnext := h.next? hm
    generalize machine.next? env = found, other.next? env' = found' at hnext
    cases hnext with
    | none => exact .some hm
    | some _ => exact .none
  | succ moves ih =>
    rw [Machine.run, Machine.run]
    have hnext := h.next? hm
    generalize machine.next? env = found, other.next? env' = found' at hnext
    cases hnext with
    | none => exact .some hm
    | some hnext => exact ih hnext

/-- Every run of one machine is one of the other. -/
theorem exists_run {steps : Nat} {last : Machine} (hr : Machine.Run env steps machine last) :
    ∃ last', Machine.Run env' steps other last' ∧ last.Alike Q R last' := by
  induction hr generalizing other with
  | refl machine => exact ⟨other, .refl other, hm⟩
  | @advance machine next last address steps move _ ih =>
    have hmove := h.perform? hm (.advance address)
    rw [move] at hmove
    generalize hnext : other.perform? env' (.advance address) = found at hmove
    cases hmove with
    | some halike =>
      obtain ⟨last', hrest, hlast⟩ := ih halike
      exact ⟨last', .advance hnext hrest, hlast⟩
  | @pass machine next last steps move _ ih =>
    have hmove := h.perform? hm .pass
    rw [move] at hmove
    generalize hnext : other.perform? env' .pass = found at hmove
    cases hmove with
    | some halike =>
      obtain ⟨last', hrest, hlast⟩ := ih halike
      exact ⟨last', .pass hnext hrest, hlast⟩

end Readings

end Lockstep

namespace Executor

/-- Requests that start with machines in lockstep, or end in the same fault. -/
def StartAlike (Q : State → State → Prop) (start other : Except Fault (Environment × Machine)) :
    Prop :=
  Concur (fun reached reached' => ∃ R, Lockstep reached.1 reached'.1 Q R ∧
    Machine.Alike Q R reached.2 reached'.2) start other

theorem StartAlike.swap {Q : State → State → Prop}
    {start other : Except Fault (Environment × Machine)} (h : StartAlike Q start other) :
    StartAlike (flip Q) other start := by
  refine Concur.imp (Concur.symm h) fun hboth => ?_
  obtain ⟨R, hlockstep, halike⟩ := hboth
  exact ⟨flip R, hlockstep.symm, halike.symm⟩

variable {a b : Executor} {schema schema' : Schema} {request request' : Request}

section Readings

variable {Q : State → State → Prop} {α : Type} {read : Execution → α}
  (h : StartAlike Q (a.start schema request) (b.start schema' request'))
  (hread : ∀ {state state'}, Q state state' → read state.execution = read state'.execution)

include h hread

theorem execute_read_eq (moves : Nat) :
    (a.execute schema request moves).map (Except.map read) =
      (b.execute schema' request' moves).map (Except.map read) := by
  unfold execute
  generalize a.start schema request = start, b.start schema' request' = start' at h
  cases h with
  | error raised => rfl
  | @ok reached reached' h =>
    obtain ⟨R, hlockstep, halike⟩ := h
    have hrun := hlockstep.run halike moves
    dsimp only
    generalize reached.2.run reached.1 moves = last, reached'.2.run reached'.1 moves = last' at hrun
    cases hrun with
    | none => rfl
    | some hlast => exact hlast.read_eq hread

theorem reaches_read {result : Except Fault Execution} (hr : a.Reaches schema request result) :
    ∃ other, b.Reaches schema' request' other ∧ result.map read = other.map read := by
  cases hr with
  | refused hs =>
    rw [hs] at h
    generalize hother : b.start schema' request' = start at h
    cases h
    exact ⟨_, .refused hother, rfl⟩
  | @ended env machine last steps _ hs hrun he =>
    rw [hs] at h
    generalize hother : b.start schema' request' = start at h
    cases h with | ok h
    obtain ⟨R, hlockstep, halike⟩ := h
    obtain ⟨last', hlast, hresult⟩ := hlockstep.exists_run halike hrun
    have hread := hresult.read_eq hread
    rw [he, Option.map_some] at hread
    obtain ⟨other, hother', hsame⟩ := Option.map_eq_some_iff.mp hread.symm
    exact ⟨other, .ended hother hlast hother', hsame.symm⟩

end Readings

section Same

theorem StartAlike.symm {start other : Except Fault (Environment × Machine)}
    (h : StartAlike Eq start other) : StartAlike Eq other start := by
  have hsame : flip (@Eq State) = Eq := by
    funext state state'
    exact propext eq_comm
  exact hsame ▸ h.swap

variable (h : StartAlike Eq (a.start schema request) (b.start schema' request'))

include h

theorem execute_eq_of_alike (moves : Nat) :
    a.execute schema request moves = b.execute schema' request' moves := by
  have hread : ∀ {state state' : State}, state = state' → id state.execution = id state'.execution :=
    fun hsame => congrArg State.execution hsame
  simpa [Except.map_id] using execute_read_eq h hread moves

theorem reaches_of_alike {result : Except Fault Execution} (hr : a.Reaches schema request result) :
    b.Reaches schema' request' result := by
  have hread : ∀ {state state' : State}, state = state' → id state.execution = id state'.execution :=
    fun hsame => congrArg State.execution hsame
  obtain ⟨other, hreaches, hsame⟩ := reaches_read h hread hr
  obtain rfl : result = other := by simpa [Except.map_id] using hsame
  exact hreaches

end Same

end Executor

end GraphQL
