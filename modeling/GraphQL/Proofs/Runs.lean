import GraphQL.Proofs.Steps

/-!
# Runs

The runs of a machine are all sequences of moves that are possible, whoever chooses them. A machine
that has not ended can always take a step of work, at once or after time has passed: a value waits
for a permit only while other values hold the permits, and these can go on. `Halts` bounds the steps
that pieces of work can take whatever state they meet; it does not depend on the order of the steps.
-/

namespace GraphQL

namespace Machine

/-- The runs of a machine, with the number of steps of work in them. -/
inductive Run (env : Environment) : Nat → Machine → Machine → Prop where
  | refl (machine : Machine) : Run env 0 machine machine
  | advance {machine next last : Machine} {address : Address} {steps : Nat}
      (move : machine.perform? env (.advance address) = some next)
      (rest : Run env steps next last) : Run env (steps + 1) machine last
  | pass {machine next last : Machine} {steps : Nat}
      (move : machine.perform? env .pass = some next)
      (rest : Run env steps next last) : Run env steps machine last

variable {env : Environment}

theorem advance_eq {machine next : Machine} {address : Address}
    (h : machine.perform? env (.advance address) = some next) :
    ∃ piece, (address, piece) ∈ machine.task.frontier ∧ machine.canStep env piece = true ∧
      next.task = machine.task.replace address (piece.step env machine.state).1 ∧
      next.state = (piece.step env machine.state).2 := by
  simp only [perform?] at h
  cases hw : machine.task.work? address with
  | none => simp [hw] at h
  | some piece =>
    by_cases hc : machine.canStep env piece = true
    · simp only [hw, hc, if_true, Option.some.injEq] at h
      subst h
      exact ⟨piece, Task.work?_eq_some.mp hw, hc, rfl, rfl⟩
    · simp [hw, hc] at h

/-- A step of work in full: the piece that takes it, what it does and what it leaves to do. -/
theorem advance_account {machine next : Machine} {address : Address}
    (h : machine.perform? env (.advance address) = some next) :
    ∃ left piece right deeds outcome,
      machine.task.strands = left ++ .ok piece :: right ∧
      outcome = (piece.step env machine.state).1 ∧
      Strand.Trims (left ++ outcome.strands ++ right) next.task.strands ∧
      next.state = machine.state.performAll deeds ∧
      (Work.Step env machine.state piece deeds outcome ∨
        Work.Prunes env machine.state piece deeds outcome) := by
  obtain ⟨piece, hm, _, ht, hstate⟩ := advance_eq h
  obtain ⟨left, right, hs, htrim⟩ := Task.strands_replace hm
  obtain ⟨deeds, hd, hk⟩ := Work.step_account env machine.state piece
  refine ⟨left, piece, right, deeds, _, hs, rfl, ?_, hstate.trans hd, hk⟩
  rw [ht]
  exact htrim _

theorem pass_eq {machine next : Machine} (h : machine.perform? env .pass = some next) :
    ∃ wake, machine.nextWake? = some wake ∧
      next = { machine with
        state := { machine.state with clock := max machine.state.clock wake } } := by
  obtain ⟨wake, hw, he⟩ := Option.map_eq_some_iff.mp h
  exact ⟨wake, hw, he.symm⟩

theorem Run.trans {first second : Nat} {a b c : Machine} (h : Run env first a b)
    (k : Run env second b c) : Run env (first + second) a c := by
  induction h with
  | refl machine => simpa using k
  | advance move _ ih =>
    rw [Nat.add_right_comm]
    exact .advance move (ih k)
  | pass move _ ih => exact .pass move (ih k)

/-- What each move preserves holds along a run. -/
theorem Run.preserves {P : Machine → Prop} {steps : Nat} {first last : Machine}
    (h : Run env steps first last)
    (hstep : ∀ {machine next : Machine} {address : Address},
      machine.perform? env (.advance address) = some next → P machine → P next)
    (hpass : ∀ {machine next : Machine}, machine.perform? env .pass = some next → P machine →
      P next) (hp : P first) : P last := by
  induction h with
  | refl machine => exact hp
  | advance move _ ih => exact ih (hstep move hp)
  | pass move _ ih => exact ih (hpass move hp)

/-- Time changes nothing of the tree. -/
theorem Run.tree_of_idle {steps : Nat} {first last : Machine} (h : Run env steps first last)
    (hi : steps = 0) : last.state.tree = first.state.tree := by
  induction h with
  | refl machine => rfl
  | advance => cases hi
  | pass move _ ih =>
    obtain ⟨wake, -, rfl⟩ := pass_eq move
    exact ih hi

theorem normal_step (env : Environment) (state : State) (piece : Work) :
    Task.Normal (piece.step env state).1 := by
  have hworks : ∀ pieces : List Work, ∀ task ∈ pieces.map Task.work, Task.Normal task := by
    intro pieces task ht
    obtain ⟨piece, _, rfl⟩ := List.mem_map.mp ht
    exact .work piece
  obtain ⟨deeds, _, hs | hp⟩ := Work.step_account env state piece
  · generalize (piece.step env state).1 = next at hs
    cases hs with
    | gatherFault | prepareFault | fieldFault => exact .fault _
    | gather =>
      split
      · exact Task.normal_inOrder (hworks _)
      · exact .work _
    | prepared => exact Task.normal_dispatch (hworks _)
    | skip | null | refuse => exact .done
    | complete =>
      cases Shaped.of env _ _ _ with
      | null errors => exact .done
      | leaf output => exact .done
      | list itemType items => exact Task.normal_dispatch (hworks _)
      | object type value => exact .work _
      | fault raised => exact .fault raised
    | prepareDeclare | prepareAdmit | prepare | fieldDeclare | fieldAdmit | field => exact .work _
    | ready | queue | start | wake | settle | sleep | report | content | enter => exact .work _
  · generalize (piece.step env state).1 = next at hp
    cases hp with
    | prepare => exact .work _
    | field => exact .done

theorem Run.normal {steps : Nat} {first last : Machine} (h : Run env steps first last)
    (hn : first.task.Normal) : last.task.Normal := by
  refine h.preserves (P := fun machine => machine.task.Normal) ?_ ?_ hn
  · intro machine next address move hm
    obtain ⟨piece, _, _, ht, _⟩ := advance_eq move
    rw [ht]
    exact hm.replace (normal_step env _ _) address
  · intro machine next move hm
    obtain ⟨wake, _, rfl⟩ := pass_eq move
    exact hm

theorem advance_of_canStep {machine : Machine} {address : Address} {piece : Work}
    (hm : (address, piece) ∈ machine.task.frontier) (hc : machine.canStep env piece = true) :
    ∃ next, machine.perform? env (.advance address) = some next := by
  simp [perform?, Task.work?_eq_some.mpr hm, hc]

/-- The earliest of the values that wait for a permit gets one where none is in use. -/
theorem isEntitled_of_first {machine : Machine} {ticket : Nat} (hp : machine.permitsInUse = 0)
    (hf : ∀ other ∈ machine.works.filterMap Work.ticket?, ticket ≤ other) :
    machine.isEntitled env ticket = true := by
  have ha : machine.ahead ticket = 0 := by
    apply List.countP_eq_zero.mpr
    intro other ho
    have h := hf other ho
    simp only [decide_eq_true_eq, Nat.not_lt]
    exact h
  unfold isEntitled
  rw [hp, ha]
  cases h : env.config.maxConcurrentResolvers <;> simp

/-- Where nothing can step, some value sleeps. -/
theorem nextWake_of_stuck {machine : Machine} (hn : machine.works ≠ [])
    (hs : ∀ piece ∈ machine.works, machine.canStep env piece = false) :
    ∃ wake, machine.nextWake? = some wake := by
  cases hw : machine.nextWake? with
  | some wake => exact ⟨wake, rfl⟩
  | none =>
    exfalso
    have hnone : machine.works.filterMap Work.wake? = [] := by
      simpa [nextWake?, List.min?_eq_none_iff] using hw
    have hq : ∀ piece ∈ machine.works, ∃ site purpose ticket stages value,
        piece = .await site purpose (.queued ticket) stages value := by
      intro piece hm
      have hc := hs piece hm
      have hwake : piece.wake? = none := by
        simpa using List.filterMap_eq_nil_iff.mp hnone piece hm
      cases piece with
      | await site purpose progress stages value =>
        cases progress with
        | queued ticket => exact ⟨site, purpose, ticket, stages, value, rfl⟩
        | started => simp [canStep] at hc
        | asleep wake => simp [Work.wake?] at hwake
      | _ => simp [canStep] at hc
    have hp : machine.permitsInUse = 0 := by
      apply List.countP_eq_zero.mpr
      intro piece hm
      obtain ⟨_, _, _, _, _, rfl⟩ := hq piece hm
      simp [Work.holdsPermit]
    have htickets : machine.works.filterMap Work.ticket? ≠ [] := by
      intro he
      obtain ⟨piece, hm⟩ := List.exists_mem_of_ne_nil _ hn
      obtain ⟨_, _, _, _, _, rfl⟩ := hq piece hm
      simpa [Work.ticket?] using List.filterMap_eq_nil_iff.mp he _ hm
    obtain ⟨ticket, hmin⟩ := Option.ne_none_iff_exists'.mp
      (mt List.min?_eq_none_iff.mp htickets)
    obtain ⟨hmem, hle⟩ := List.min?_eq_some_iff.mp hmin
    obtain ⟨piece, hm, ht⟩ := List.mem_filterMap.mp hmem
    obtain ⟨_, _, other, _, _, rfl⟩ := hq piece hm
    obtain rfl : other = ticket := by simpa [Work.ticket?] using ht
    have hc := hs _ hm
    rw [canStep, isEntitled_of_first hp hle] at hc
    cases hc

theorem next_of_canStep {machine : Machine} {entry : Address × Work}
    (hm : entry ∈ machine.task.frontier) (hc : machine.canStep env entry.2 = true) :
    ∃ address next, machine.next? env = some next ∧
      machine.perform? env (.advance address) = some next := by
  cases hf : machine.task.frontier.find? fun entry => machine.canStep env entry.2 with
  | none => exact absurd hc (List.find?_eq_none.mp hf entry hm)
  | some chosen =>
    obtain ⟨address, piece⟩ := chosen
    have hchosen : machine.canStep env piece = true := by simpa using List.find?_some hf
    obtain ⟨next, hnext⟩ := advance_of_canStep (List.mem_of_find?_eq_some hf) hchosen
    exact ⟨address, next, by simp [next?, choose?, hf, hnext], hnext⟩

/-- A machine that has not ended chooses a step, now or after some time. -/
theorem next_step {machine : Machine} (hn : machine.task.Normal)
    (ho : machine.task.outcome? = none) :
    (∃ address next, machine.next? env = some next ∧
      machine.perform? env (.advance address) = some next) ∨
    ∃ later address next, machine.next? env = some later ∧ machine.perform? env .pass = some later ∧
      later.next? env = some next ∧ later.perform? env (.advance address) = some next := by
  by_cases hex : ∃ entry ∈ machine.task.frontier, machine.canStep env entry.2 = true
  · obtain ⟨entry, hm, hc⟩ := hex
    exact .inl (next_of_canStep hm hc)
  · have hs : ∀ piece ∈ machine.works, machine.canStep env piece = false := by
      intro piece hm
      obtain ⟨entry, he, rfl⟩ := List.mem_map.mp hm
      by_contra hc
      exact hex ⟨entry, he, by simpa using hc⟩
    have hnone : machine.task.frontier.find? (fun entry => machine.canStep env entry.2) = none :=
      List.find?_eq_none.mpr fun entry he hc => hex ⟨entry, he, hc⟩
    have hne : machine.works ≠ [] := by
      simpa [works] using hn.frontier_ne_nil ho
    obtain ⟨wake, hw⟩ := nextWake_of_stuck hne hs
    have hmem := (List.min?_eq_some_iff.mp hw).1
    obtain ⟨piece, hm, hwake⟩ := List.mem_filterMap.mp hmem
    obtain ⟨⟨address, sleeper⟩, he, rfl⟩ := List.mem_map.mp hm
    let later : Machine :=
      { machine with state := { machine.state with clock := max machine.state.clock wake } }
    have hpass : machine.perform? env .pass = some later := by simp [perform?, hw, later]
    have hc : later.canStep env sleeper = true := by
      cases sleeper with
      | await site purpose progress stages value =>
        cases progress with
        | asleep other =>
          obtain rfl : other = wake := by simpa [Work.wake?] using hwake
          simp only [canStep, later, decide_eq_true_eq]
          exact Nat.le_max_right _ _
        | queued ticket => simp [Work.wake?] at hwake
        | started => simp [Work.wake?] at hwake
      | _ => simp [Work.wake?] at hwake
    have hmem : (address, sleeper) ∈ later.task.frontier := he
    obtain ⟨address, next, hnext, move⟩ := next_of_canStep hmem hc
    have hchoice : machine.next? env = some later := by simp [next?, choose?, hnone, hw, hpass]
    exact .inr ⟨later, address, next, hchoice, hpass, hnext, move⟩

theorem exists_step {machine : Machine} (hn : machine.task.Normal)
    (ho : machine.task.outcome? = none) : ∃ next, Run env 1 machine next := by
  rcases next_step hn ho with ⟨_, next, -, move⟩ | ⟨_, _, next, -, pass, -, move⟩
  · exact ⟨next, .advance move (.refl next)⟩
  · exact ⟨next, .pass pass (.advance move (.refl next))⟩

theorem frontier_of_ended {task : Task} (ho : task.outcome? ≠ none) : task.frontier = [] := by
  cases task with
  | done => simp [Task.frontier]
  | fault raised => simp [Task.frontier]
  | work | serial | together => simp [Task.outcome?] at ho

theorem next_of_ended {machine : Machine} (ho : machine.task.outcome? ≠ none) :
    machine.next? env = none := by
  simp [next?, choose?, nextWake?, works, frontier_of_ended ho]

/-- A machine that has ended does not move. -/
theorem perform_of_ended {machine : Machine} (ho : machine.task.outcome? ≠ none) (move : Move) :
    machine.perform? env move = none := by
  cases move <;> simp [perform?, nextWake?, works, Task.work?, frontier_of_ended ho]

theorem Run.eq_of_ended {steps : Nat} {first last : Machine} (h : Run env steps first last)
    (ho : first.task.outcome? ≠ none) : last = first := by
  cases h with
  | refl => rfl
  | advance move => simp [perform_of_ended ho] at move
  | pass move => simp [perform_of_ended ho] at move

/-- What the machine runs to by its own choices is what some run leads to. -/
theorem run_of_moves {moves : Nat} {machine last : Machine}
    (h : machine.run env moves = some last) : ∃ steps, Run env steps machine last := by
  induction moves generalizing machine with
  | zero =>
    simp only [run] at h
    split at h
    · obtain rfl := Option.some.inj h
      exact ⟨0, .refl machine⟩
    · cases h
  | succ moves ih =>
    simp only [run] at h
    cases hn : machine.next? env with
    | none =>
      rw [hn] at h
      obtain rfl := Option.some.inj h
      exact ⟨0, .refl machine⟩
    | some next =>
      rw [hn] at h
      obtain ⟨steps, hrun⟩ := ih h
      obtain ⟨move, -, hmove⟩ := Option.bind_eq_some_iff.mp hn
      cases move with
      | advance address => exact ⟨steps + 1, .advance hmove hrun⟩
      | pass => exact ⟨steps, .pass hmove hrun⟩

/-- Every run of a machine ends: the steps of work in a run are bounded, and as long as a run has
not ended it can take one more. -/
structure Ends (env : Environment) (machine : Machine) : Prop where
  bounded : ∃ bound, ∀ steps last, Run env steps machine last → steps ≤ bound
  continues : ∀ steps last, Run env steps machine last → last.task.outcome? = none →
    ∃ next, Run env 1 last next

/-- A machine every run of which ends comes to its end by its own choices. -/
theorem Ends.run {machine : Machine} (h : machine.Ends env) (hn : machine.task.Normal) :
    ∃ moves last, machine.run env moves = some last ∧ last.task.outcome? ≠ none := by
  obtain ⟨bound, hb⟩ := h.bounded
  clear h
  induction bound generalizing machine with
  | zero =>
    by_cases ho : machine.task.outcome? = none
    · obtain ⟨next, hrun⟩ := exists_step hn ho
      exact absurd (hb 1 next hrun) (by decide)
    · exact ⟨0, machine, by simp [Machine.run, next_of_ended ho], ho⟩
  | succ bound ih =>
    have hnext : ∀ {next : Machine}, Run env 1 machine next →
        ∃ moves last, next.run env moves = some last ∧ last.task.outcome? ≠ none := by
      intro next hrun
      refine ih (hrun.normal hn) fun steps last hrest => ?_
      have := hb _ last (hrun.trans hrest)
      omega
    by_cases ho : machine.task.outcome? = none
    · rcases next_step hn ho with
        ⟨address, next, hchoice, move⟩ | ⟨later, address, next, hchoice, pass, hlater, move⟩
      · obtain ⟨moves, last, hrun, hlast⟩ := hnext (.advance move (.refl next))
        exact ⟨moves + 1, last, by simp [Machine.run, hchoice, hrun], hlast⟩
      · obtain ⟨moves, last, hrun, hlast⟩ := hnext (.pass pass (.advance move (.refl next)))
        exact ⟨moves + 2, last, by simp [Machine.run, hchoice, hlater, hrun], hlast⟩
    · exact ⟨0, machine, by simp [Machine.run, next_of_ended ho], ho⟩

end Machine

open Strand

/-- `Halts env steps pieces`: the pieces of work, and all that becomes of them, take at most so
many steps, whatever state each step meets. -/
inductive Halts (env : Environment) : Nat → List Work → Prop where
  | nil (steps : Nat) : Halts env steps []
  | cons {piece : Work} {rest : List Work} {steps others : Nat}
      (first : ∀ state, Halts env steps (works (piece.step env state).1.strands))
      (later : Halts env others rest) : Halts env (steps + 1 + others) (piece :: rest)

namespace Halts

variable {env : Environment}

theorem mono {pieces : List Work} {steps more : Nat} (h : Halts env steps pieces)
    (hle : steps ≤ more) : Halts env more pieces := by
  induction h generalizing more with
  | nil steps => exact .nil more
  | @cons piece rest steps others first _ _ ih =>
    obtain ⟨extra, rfl⟩ := Nat.exists_eq_add_of_le hle
    rw [Nat.add_assoc]
    exact .cons first (ih (Nat.le_add_right _ _))

theorem append {xs ys : List Work} {a b : Nat} (h : Halts env a xs) (k : Halts env b ys) :
    Halts env (a + b) (xs ++ ys) := by
  induction h with
  | nil steps => exact k.mono (Nat.le_add_left _ _)
  | cons first _ _ ih =>
    rw [Nat.add_assoc]
    exact .cons first ih

theorem sublist {xs ys : List Work} {steps : Nat} (h : Halts env steps ys)
    (hs : xs.Sublist ys) : Halts env steps xs := by
  induction h generalizing xs with
  | nil steps =>
    rw [List.sublist_nil.mp hs]
    exact .nil steps
  | cons first _ _ ih =>
    cases hs with
    | cons _ hs => exact (ih hs).mono (Nat.le_add_left _ _)
    | cons_cons _ hs => exact .cons first (ih hs)

/-- A step of one of the pieces leaves fewer steps. -/
theorem step {left right : List Work} {piece : Work} {steps : Nat}
    (h : Halts env steps (left ++ piece :: right)) :
    ∃ fewer, fewer < steps ∧ ∀ state,
      Halts env fewer (left ++ works (piece.step env state).1.strands ++ right) := by
  induction left generalizing steps with
  | nil =>
    cases h with
    | @cons _ _ own others first later =>
      exact ⟨own + others, by omega, fun state => (first state).append later⟩
  | cons other left ih =>
    cases h with
    | @cons _ _ own others first later =>
      obtain ⟨fewer, hlt, hf⟩ := ih later
      exact ⟨own + 1 + fewer, by omega, fun state => .cons first (hf state)⟩

theorem single {piece : Work} {steps : Nat}
    (h : ∀ state, Halts env steps (works (piece.step env state).1.strands)) :
    Halts env (steps + 1) [piece] := .cons h (.nil 0)

theorem exists_of_forall {pieces : List Work}
    (h : ∀ piece ∈ pieces, ∃ steps, Halts env steps [piece]) :
    ∃ steps, Halts env steps pieces := by
  induction pieces with
  | nil => exact ⟨0, .nil 0⟩
  | cons piece rest ih =>
    obtain ⟨a, ha⟩ := h piece List.mem_cons_self
    obtain ⟨b, hb⟩ := ih fun other ho => h other (List.mem_cons_of_mem _ ho)
    exact ⟨a + b, ha.append hb⟩

/-- A run takes its steps from the bound. -/
theorem run {steps taken : Nat} {first last : Machine} (h : Machine.Run env taken first last)
    (hh : Halts env steps (works first.task.strands)) :
    ∃ left, left + taken ≤ steps ∧ Halts env left (works last.task.strands) := by
  induction h generalizing steps with
  | refl machine => exact ⟨steps, Nat.le_refl _, hh⟩
  | advance move _ ih =>
    obtain ⟨left, piece, right, _, outcome, hs, rfl, htrim, _, _⟩ := Machine.advance_account move
    rw [hs, works_append, works_ok] at hh
    obtain ⟨fewer, hlt, hf⟩ := hh.step
    have hsub := htrim.works_sublist
    rw [works_append, works_append] at hsub
    obtain ⟨rest, hle, hr⟩ := ih ((hf _).sublist hsub)
    exact ⟨rest, by omega, hr⟩
  | pass move _ ih =>
    obtain ⟨wake, _, rfl⟩ := Machine.pass_eq move
    exact ih hh

theorem ends {steps : Nat} {machine : Machine} (h : Halts env steps (works machine.task.strands))
    (hn : machine.task.Normal) : machine.Ends env where
  bounded := by
    refine ⟨steps, fun taken last hrun => ?_⟩
    obtain ⟨left, hle, _⟩ := h.run hrun
    omega
  continues taken last hrun ho := Machine.exists_step (hrun.normal hn) ho

end Halts

end GraphQL
