import GraphQL.Proofs.Notes

/-!
# Mutations field by field

The fields at the root of a mutation are done one after another. The task of a field ends only when
every piece of work that has come of it has ended, so what is noted belongs to one field, the one
whose turn it is, and the turn never goes back. A field that ends in a fault ends the execution.
-/

namespace GraphQL

/-- An event at the value of one of these keys of the root, or inside of it. -/
def Event.IsOf (keys : List String) (place : Nat) (event : Event) : Prop :=
  ∃ key, keys[place]? = some key ∧ [.key key] <+: event.path

namespace Event

variable {keys : List String} {place other : Nat} {event : Event}

theorem IsOf.eq (hn : keys.Nodup) (h : event.IsOf keys place) (k : event.IsOf keys other) :
    place = other := by
  obtain ⟨one, hone, hp⟩ := h
  obtain ⟨two, htwo, hq⟩ := k
  have hkeys : [PathSegment.key one] = [.key two] := by
    obtain ⟨tail, hp⟩ := hp
    obtain ⟨tail', hq⟩ := hq
    exact congrArg (fun segment => [segment]) (List.cons.inj (hp.trans hq.symm)).1
  obtain rfl : one = two := by simpa using hkeys
  obtain ⟨hlt, -⟩ := List.getElem?_eq_some_iff.mp hone
  exact (List.getElem?_inj hlt hn).mp (hone.trans htwo.symm)

theorem not_isOf (h : event.path = []) : ¬ event.IsOf keys place := by
  rintro ⟨key, -, hp⟩
  rw [h] at hp
  exact absurd (List.prefix_nil.mp hp) (by simp)

end Event

/-- The events in the order of the fields at the root: first the root is written, and then
everything happens at one of the fields or inside of it, each field after those before it. -/
structure InTurn (keys : List String) (events : List Event) : Prop where
  belongs : ∀ event ∈ events,
    (∃ landed, event = .wrote [] (.object keys) false landed) ∨ ∃ place, event.IsOf keys place
  ordered : events.Pairwise fun event later => ∀ place other,
    event.IsOf keys place → later.IsOf keys other → place ≤ other

namespace InTurn

variable {keys : List String} {events more : List Event} {turn : Nat}

theorem nil : InTurn keys [] where
  belongs _ he := nomatch he
  ordered := .nil

/-- The field whose turn it is goes on. -/
theorem append (h : InTurn keys events) (hn : keys.Nodup)
    (hpast : ∀ event ∈ events, ∀ place, event.IsOf keys place → place ≤ turn)
    (hmore : ∀ event ∈ more, event.IsOf keys turn) : InTurn keys (events ++ more) where
  belongs event he := (List.mem_append.mp he).elim (h.belongs event)
    fun he => .inr ⟨turn, hmore event he⟩
  ordered := by
    refine List.pairwise_append.mpr ⟨h.ordered, ?_, fun event he later hl place other hp ho => ?_⟩
    · refine List.pairwise_of_forall_mem_list fun event he later hl place other hp ho => ?_
      rw [hp.eq hn (hmore event he), ho.eq hn (hmore later hl)]
    · rw [ho.eq hn (hmore later hl)]
      exact hpast event he place hp

end InTurn

namespace Task

variable {frame : ObjectFrame} {past rest : List FieldGroup} {group : FieldGroup}
variable {current : Task}

/-- The fields at the root: those before one are done, it is under way, and those after it wait. -/
def turns (frame : ObjectFrame) (past : List FieldGroup) (current : Task)
    (rest : List FieldGroup) : List Task :=
  (past.map fun _ => done) ++ current :: rest.map fun group => .work (.field frame .declare group)

theorem verdict_turns : verdict (turns frame past current rest) =
    verdict (current :: rest.map fun group => .work (.field frame .declare group)) := by
  induction past with
  | nil => rfl
  | cons group past ih => exact ih

/-- The field under way goes on. -/
theorem inOrder_turns (h : current.outcome? = none) :
    inOrder (turns frame past current rest) = serial (turns frame past current rest) := by
  simp [inOrder, siblings, verdict_turns, verdict, h]

/-- A fault of the field under way is that of all. -/
theorem inOrder_turns_fault (raised : Fault) :
    inOrder (turns frame past (fault raised) rest) = fault raised := by
  simp [inOrder, siblings, verdict_turns, verdict, outcome?]

/-- The last field is done. -/
theorem inOrder_turns_done : inOrder (turns frame past done []) = done := by
  simp [inOrder, siblings, verdict_turns, verdict, outcome?]

/-- A field is done, and it is the turn of the next. -/
theorem inOrder_turns_next (next : FieldGroup) :
    inOrder (turns frame past done (next :: rest)) =
      serial (turns frame (past ++ [group]) (.work (.field frame .declare next)) rest) := by
  have hturns : turns frame past done (next :: rest) =
      turns frame (past ++ [group]) (.work (.field frame .declare next)) rest := by simp [turns]
  rw [hturns]
  exact inOrder_turns rfl

/-- Only the field whose turn it is has work under way. -/
theorem mem_frontier_turns (h : current.outcome? = none) {address : Address} {piece : Work}
    (hm : (address, piece) ∈ (serial (turns frame past current rest)).frontier) :
    ∃ inner, address = past.length :: inner ∧ (inner, piece) ∈ current.frontier := by
  have hne : current ≠ done := fun hd => by simp [hd, outcome?] at h
  rw [frontier, turns, frontierOfFirst_append (by simp), frontierOfFirst_cons hne, Nat.zero_add,
    List.length_map] at hm
  obtain ⟨⟨inner, other⟩, hentry, he⟩ := List.mem_map.mp hm
  obtain ⟨rfl, rfl⟩ := Prod.mk.inj he
  exact ⟨inner, rfl, hentry⟩

theorem replace_turns (inner : Address) (next : Task) :
    (serial (turns frame past current rest)).replace (past.length :: inner) next =
      inOrder (turns frame past (current.replace inner next) rest) := by
  have hmodify := modify_middle (past.map fun _ => done)
    (rest.map fun group => .work (.field frame .declare group)) current
        fun task => replace inner task next
  rw [List.length_map] at hmodify
  rw [replace, turns, hmodify]
  rfl

end Task

namespace Machine

/-- It is the turn of a field at the root: it has work under way, which fills its place only, and
nothing has happened for the fields after it. -/
structure Turn (frame : ObjectFrame) (past : List FieldGroup) (group : FieldGroup)
    (rest : List FieldGroup) (current : Task) (machine : Machine) : Prop where
  task : machine.task = .serial (Task.turns frame past current rest)
  unfinished : current.outcome? = none
  owned : ∀ piece ∈ Strand.works current.strands, ∀ path ∈ piece.owned, [.key group.key] <+: path
  reached : ∀ event ∈ machine.state.events, ∀ place,
    event.IsOf ((past ++ group :: rest).map FieldGroup.key) place → place ≤ past.length

/-- The fields at the root are still to be gathered, or it is the turn of one of them, or the
execution has ended. -/
inductive Served (frame : ObjectFrame) (selections : List Selection) (groups : List FieldGroup)
    (machine : Machine) : Prop where
  | gathering (ht : machine.task = .work (.select frame selections true))
      (he : machine.state.events = [])
  | turn {past rest : List FieldGroup} {group : FieldGroup} {current : Task}
      (hg : groups = past ++ group :: rest) (h : machine.Turn frame past group rest current)
  | ended (ho : machine.task.outcome? ≠ none)

variable {env : Environment} {machine next : Machine} {address : Address} {frame : ObjectFrame}
variable {selections : List Selection} {groups past rest : List FieldGroup} {group : FieldGroup}
variable {current : Task}

theorem getElem?_turn : ((past ++ group :: rest).map FieldGroup.key)[past.length]? =
    some group.key := by simp

/-- A step is one of the field whose turn it is. -/
theorem Turn.advance (h : machine.Turn frame past group rest current) (hc : machine.Coherent env)
    (move : machine.perform? env (.advance address) = some next) :
    ∃ inner piece more, address = past.length :: inner ∧ (inner, piece) ∈ current.frontier ∧
      next.task = .inOrder
        (Task.turns frame past (current.replace inner (piece.step env machine.state).1) rest) ∧
      (∀ left ∈ Strand.works (current.replace inner (piece.step env machine.state).1).strands,
        ∀ path ∈ left.owned, [.key group.key] <+: path) ∧
      next.state.events = machine.state.events ++ more ∧
      ∀ event ∈ more, event.IsOf ((past ++ group :: rest).map FieldGroup.key) past.length := by
  obtain ⟨piece, hm, -, htask, hstate⟩ := advance_eq move
  rw [h.task] at hm htask
  obtain ⟨inner, rfl, hinner⟩ := Task.mem_frontier_turns h.unfinished hm
  obtain ⟨left, right, hs, htrim⟩ := Task.strands_replace hinner
  obtain ⟨deeds, hdeeds, hstep⟩ := Work.step_account env machine.state piece
  have hown := h.owned
  rw [hs] at hown
  have hpiece : ∀ top ∈ piece.owned, [.key group.key] <+: top := hown piece (by simp)
  have hsingle : GraphQL.Coherent env machine.state.tree [piece] := by
    refine GraphQL.Coherent.sublist hc (List.singleton_sublist.mpr ?_)
    rw [h.task]
    simp [Task.strands, Task.turns, Task.strandsOfAll_append, Task.strandsOfAll, hs]
  have hbelow : ∀ path ∈ (Strand.works (piece.step env machine.state).1.strands).flatMap Work.owned,
      ∃ top ∈ piece.owned, top <+: path := (Work.succession_of_account hstep hsingle).below
  have hnotes : ∀ deed ∈ deeds, deed.Notes (piece.Note env (piece.step env machine.state).1) :=
    Work.notes_of_account hstep
  obtain ⟨more, hmore, hnoted⟩ := machine.state.performAll_notes hnotes
  refine ⟨inner, piece, more, rfl, hinner, htask.trans (Task.replace_turns inner _), ?_,
    by rw [hstate, hdeeds, hmore], fun event he => ?_⟩
  · refine (htrim _).forall_works hown fun other ho path hp => ?_
    obtain ⟨top, ht, hprefix⟩ := hbelow path (List.mem_flatMap.mpr ⟨other, ho, hp⟩)
    exact (hpiece top ht).trans hprefix
  · obtain ⟨top, ht, hprefix⟩ := (hnoted event he).below
    exact ⟨group.key, getElem?_turn, (hpiece top ht).trans hprefix⟩

/-- A field at the root fills its place. -/
theorem owned_field (hf : frame.path = []) (group : FieldGroup) :
    ∀ piece ∈ Strand.works (Task.work (.field frame .declare group)).strands, ∀ path ∈ piece.owned,
      [.key group.key] <+: path := by
  intro piece hm path hp
  obtain rfl := List.mem_singleton.mp hm
  obtain rfl := List.mem_singleton.mp hp
  rw [hf]
  exact List.prefix_refl _

/-- The field whose turn it is goes on, ends in a fault or gives the turn to the next. -/
theorem served_turns {next : Task} {state : State}
    (ho : ∀ piece ∈ Strand.works next.strands, ∀ path ∈ piece.owned, [.key group.key] <+: path)
    (he : ∀ event ∈ state.events, ∀ place,
      event.IsOf ((past ++ group :: rest).map FieldGroup.key) place → place ≤ past.length)
    (hf : frame.path = []) :
    Served frame selections (past ++ group :: rest)
      { task := .inOrder (Task.turns frame past next rest), state } := by
  have hserial : next.outcome? = none → Served frame selections (past ++ group :: rest)
      { task := .inOrder (Task.turns frame past next rest), state } :=
    fun hn => .turn rfl ⟨Task.inOrder_turns hn, hn, ho, he⟩
  cases next with
  | work | serial | together => exact hserial rfl
  | fault raised => exact .ended (by simp [Task.inOrder_turns_fault, Task.outcome?])
  | done =>
    cases rest with
    | nil => exact .ended (by simp [Task.inOrder_turns_done, Task.outcome?])
    | cons after rest =>
      have hturn : Turn frame (past ++ [group]) after rest (.work (.field frame .declare after))
          { task := .inOrder (Task.turns frame past .done (after :: rest)), state } := by
        refine ⟨Task.inOrder_turns_next after, rfl, owned_field hf after, fun event hm place hp => ?_⟩
        rw [List.append_assoc, List.singleton_append] at hp
        exact (he event hm place hp).trans (by simp)
      exact .turn (by simp) hturn

/-- The first step writes the root with its keys, and leaves its fields to be done. -/
theorem advance_gathering (ht : machine.task = .work (.select frame selections true))
    (he : machine.state.events = []) (hf : frame.path = [])
    (hg : Gathering.collect env.schema env.document env.context frame.type selections = .ok groups)
    (move : machine.perform? env (.advance address) = some next) :
    next.task = .inOrder (groups.map fun group => .work (.field frame .declare group)) ∧
      ∃ landed, next.state.events =
        [.wrote [] (.object (groups.map FieldGroup.key)) false landed] := by
  obtain ⟨piece, hm, -, htask, hstate⟩ := advance_eq move
  rw [ht] at hm htask
  obtain ⟨rfl, rfl⟩ : address = [] ∧ piece = .select frame selections true := by
    simpa [Task.frontier] using hm
  have hselect : (Work.select frame selections true).step env machine.state =
      (.inOrder (groups.map fun group => .work (.field frame .declare group)),
        machine.state.write [] (.object (groups.map FieldGroup.key)) false) := by
    simp [Work.step, Preparation.select, hg, hf]
  rw [hselect] at htask hstate
  have hevents := machine.state.events_write [] (.object (groups.map FieldGroup.key)) false
  rw [he] at hevents
  exact ⟨htask, _, (congrArg State.events hstate).trans hevents⟩

/-- Every step keeps the order of the fields. -/
theorem Served.advance (h : machine.Served frame selections groups) (hc : machine.Coherent env)
    (hi : InTurn (groups.map FieldGroup.key) machine.state.events) (hf : frame.path = [])
    (hg : Gathering.collect env.schema env.document env.context frame.type selections = .ok groups)
    (move : machine.perform? env (.advance address) = some next) :
    next.Served frame selections groups ∧
      InTurn (groups.map FieldGroup.key) next.state.events := by
  have hn := Gathering.nodup_collect hg
  cases h with
  | ended ho => simp [perform_of_ended ho] at move
  | gathering ht he =>
    obtain ⟨htask, landed, hevents⟩ := advance_gathering ht he hf hg move
    obtain ⟨task, state⟩ := next
    dsimp only at htask hevents
    subst htask
    refine ⟨?_, ?_⟩
    · cases groups with
      | nil => exact .ended (by simp [Task.inOrder, Task.siblings, Task.verdict, Task.outcome?])
      | cons group rest =>
        have hroot : ∀ event ∈ state.events, ∀ place,
            event.IsOf (([] ++ group :: rest).map FieldGroup.key) place →
              place ≤ ([] : List FieldGroup).length := by
          intro event hm place hp
          rw [hevents] at hm
          rw [List.mem_singleton.mp hm] at hp
          exact absurd hp (Event.not_isOf rfl)
        exact served_turns (owned_field hf group) hroot hf
    · rw [hevents]
      exact ⟨fun event hm => .inl ⟨landed, List.mem_singleton.mp hm⟩, List.pairwise_singleton _ _⟩
  | @turn past rest group current hgroups h =>
    subst hgroups
    obtain ⟨inner, piece, more, -, -, htask, hown, hevents, hmore⟩ := h.advance hc move
    obtain ⟨task, state⟩ := next
    dsimp only at htask hevents
    subst htask
    refine ⟨served_turns hown (fun event he place hp => ?_) hf, ?_⟩
    · rw [hevents] at he
      rcases List.mem_append.mp he with he | he
      · exact h.reached event he place hp
      · exact (hp.eq hn (hmore event he)).le
    · rw [hevents]
      exact hi.append hn h.reached hmore

theorem Served.pass (h : machine.Served frame selections groups)
    (move : machine.perform? env .pass = some next) : next.Served frame selections groups := by
  obtain ⟨wake, -, rfl⟩ := pass_eq move
  cases h with
  | gathering ht he => exact .gathering ht he
  | turn hg h => exact .turn hg ⟨h.task, h.unfinished, h.owned, h.reached⟩
  | ended ho => exact .ended ho

theorem Run.served {steps : Nat} {first last : Machine} (h : Run env steps first last)
    (hs : first.Served frame selections groups) (hc : first.Coherent env)
    (hi : InTurn (groups.map FieldGroup.key) first.state.events) (hf : frame.path = [])
    (hg : Gathering.collect env.schema env.document env.context frame.type selections = .ok groups) :
    last.Coherent env ∧ last.Served frame selections groups ∧
      InTurn (groups.map FieldGroup.key) last.state.events := by
  refine h.preserves (P := fun machine => machine.Coherent env ∧
    machine.Served frame selections groups ∧
      InTurn (groups.map FieldGroup.key) machine.state.events) ?_ ?_ ⟨hc, hs, hi⟩
  · rintro machine next address move ⟨hc, hs, hi⟩
    exact ⟨hc.advance move, hs.advance hc hi hf hg move⟩
  · rintro machine next move ⟨hc, hs, hi⟩
    have hserved := hs.pass move
    obtain ⟨wake, -, rfl⟩ := pass_eq move
    exact ⟨hc, hserved, hi⟩

/-- The task of a field at the root, by its place, if the fields are done one after another. -/
def field? (machine : Machine) (place : Nat) : Option Task :=
  match machine.task with
  | .serial tasks => tasks[place]?
  | _ => none

/-- The fields of the root, of these keys, are done one after another. -/
structure Serial (env : Environment) (keys : List String) (machine : Machine) : Prop where
  inTurn : InTurn keys machine.state.events
  /-- When the root has been written, a step is one of the field whose turn it is. The fields before
  it are done, nothing has happened for those after it, and all that the step notes belongs to it. -/
  steps : ∀ address next, machine.perform? env (.advance address) = some next →
    machine.state.events = [] ∨ ∃ place inner more, address = place :: inner ∧
      (∀ before < place, machine.field? before = some .done) ∧
      (∀ event ∈ machine.state.events, ∀ other, event.IsOf keys other → other ≤ place) ∧
      next.state.events = machine.state.events ++ more ∧ ∀ event ∈ more, event.IsOf keys place
  /-- When a field ends in a fault, nothing has happened for a later one, and nothing ever does. -/
  faults : ∀ place inner task piece raised next, machine.field? place = some task →
    (inner, piece) ∈ task.frontier →
    machine.perform? env (.advance (place :: inner)) = some next →
    task.replace inner (piece.step env machine.state).1 = .fault raised →
    (∀ event ∈ next.state.events, ∀ other, event.IsOf keys other → other ≤ place) ∧
      next.task = .fault raised ∧ ∀ steps last, Run env steps next last → last = next

theorem Turn.field?_eq (h : machine.Turn frame past group rest current) (place : Nat) :
    machine.field? place = (Task.turns frame past current rest)[place]? := by
  rw [field?, h.task]

theorem Turn.past_done (h : machine.Turn frame past group rest current) :
    ∀ before < past.length, machine.field? before = some .done := by
  intro before hb
  rw [h.field?_eq, Task.turns, List.getElem?_append_left (by simpa using hb)]
  simp [hb]

theorem Turn.field?_current (h : machine.Turn frame past group rest current) :
    machine.field? past.length = some current := by
  rw [h.field?_eq, Task.turns, List.getElem?_append_right (by simp)]
  simp

theorem Served.serial (h : machine.Served frame selections groups) (hc : machine.Coherent env)
    (hn : (groups.map FieldGroup.key).Nodup)
    (hi : InTurn (groups.map FieldGroup.key) machine.state.events) :
    machine.Serial env (groups.map FieldGroup.key) where
  inTurn := hi
  steps address next move := by
    cases h with
    | gathering ht he => exact .inl he
    | ended ho => simp [perform_of_ended ho] at move
    | @turn past rest group current hgroups h =>
      subst hgroups
      obtain ⟨inner, piece, more, rfl, -, -, -, hevents, hmore⟩ := h.advance hc move
      exact .inr ⟨past.length, inner, more, rfl, h.past_done, h.reached, hevents, hmore⟩
  faults place inner task piece raised next htask hm move hfault := by
    cases h with
    | gathering ht he => simp [field?, ht] at htask
    | ended ho => simp [perform_of_ended ho] at move
    | @turn past rest group current hgroups h =>
      subst hgroups
      obtain ⟨inner', piece', more, he, hm', hnext, -, hevents, hmore⟩ := h.advance hc move
      obtain ⟨rfl, rfl⟩ := List.cons.inj he
      obtain rfl := Option.some.inj (h.field?_current.symm.trans htask)
      obtain rfl := Task.frontier_unique hm hm'
      rw [hfault, Task.inOrder_turns_fault] at hnext
      refine ⟨fun event he other ho => ?_, hnext, fun steps last hr => hr.eq_of_ended ?_⟩
      · rw [hevents] at he
        rcases List.mem_append.mp he with he | he
        · exact h.reached event he other ho
        · exact (ho.eq hn (hmore event he)).le
      · simp [hnext, Task.outcome?]

end Machine

namespace Executor

/-- **The fields of a mutation are done one after another.** In every run, at every moment, what has
happened is in the order of the response keys of the root: all that belongs to a field, at any depth
inside of it, comes before all that belongs to a later one. A field that ends in a fault ends the
execution. -/
theorem mutation_serial {executor : Executor} {schema : Schema} {request : Request}
    {env : Environment} {machine last : Machine} {operation : Operation} {rootType : TypeDef}
    {groups : List FieldGroup} {steps : Nat}
    (hs : executor.start schema request = .ok (env, machine))
    (ho : request.document.operation? request.operationName = .ok operation)
    (hm : operation.kind = .mutation)
    (ht : schema.rootType env.context .mutation = .ok rootType)
    (hg : Gathering.collect schema request.document env.context rootType operation.selections =
      .ok groups)
    (hr : Machine.Run env steps machine last) : last.Serial env (groups.map FieldGroup.key) := by
  obtain ⟨operation', rootType', ho', ht', rfl, rfl⟩ := start_found hs
  obtain rfl := Except.ok.inj (ho.symm.trans ho')
  rw [hm] at ht'
  obtain rfl := Except.ok.inj (ht.symm.trans ht')
  have hcoherent := coherent_start hs
  have hserved : (Machine.start operation rootType request.root).Served
      { path := [], type := rootType, value := request.root } operation.selections groups :=
    .gathering (by simp [Machine.start, hm]) rfl
  obtain ⟨hc, hlast, hinTurn⟩ := hr.served hserved hcoherent .nil rfl hg
  exact hlast.serial hc (Gathering.nodup_collect hg) hinTurn

end Executor

namespace Sample

def renamings : Schema where
  queryType := some "Query"
  mutationType := some "Mutation"
  types := [.object { name := "Mutation", fields := [{ name := "rename", type := .late "String" }] },
    .scalar { name := "String" }]

/-- It takes a while to rename. -/
def renamer : Executor where
  registry :=
    { resolvers := [("Mutation.rename", { resolve := fun _ _ _ _ =>
        { resolution := .deferred [.pause 5] (.value (.str "Ada")) } })] }

def renameAs (key : String) : FieldNode := { name := "rename", aliasName := some key }

def renameTwice : Operation where
  kind := .mutation
  selections := [.field (renameAs "first"), .field (renameAs "second")]

def renameRequest : Request where
  document := { operations := [renameTwice] }

theorem execute_renaming :
    (renamer.execute renamings renameRequest 30).map (Except.map fun execution =>
      execution.history.filterMap fun (time, event) => event.called?.map fun path => (time, path)) =
      some (.ok [(0, [.key "first"]), (5, [.key "second"])]) := by
  cbv

end Sample

namespace Executor

/-- The second renaming begins when the first has ended. -/
theorem mutation_serial_of_renaming :
    ∃ env machine last steps, Sample.renamer.start Sample.renamings Sample.renameRequest =
        .ok (env, machine) ∧ Machine.Run env steps machine last ∧
      (last.state.history.reverse.filterMap fun (time, event) =>
        event.called?.map fun path => (time, path)) =
          [(0, [.key "first"]), (5, [.key "second"])] ∧
      last.Serial env ["first", "second"] := by
  obtain ⟨execution, hreaches, hseen⟩ := Reaches.of_execute Sample.execute_renaming
  cases hreaches with
  | @ended env machine last steps _ hs hr he =>
    refine ⟨env, machine, last, steps, hs, hr, ?_, ?_⟩
    · obtain ⟨-, rfl⟩ := Machine.execution_of_result he
      exact hseen
    · obtain ⟨operation, rootType, ho, ht, rfl, -⟩ := start_found hs
      obtain rfl := Except.ok.inj ho
      have hg : Gathering.collect Sample.renamings Sample.renameRequest.document
          (Sample.renameTwice.withDefaults Sample.renameRequest.context) rootType
          Sample.renameTwice.selections =
            .ok [{ key := "first", node := Sample.renameAs "first" },
              { key := "second", node := Sample.renameAs "second" }] := by cbv
      exact mutation_serial hs rfl rfl ht hg hr

end Executor

end GraphQL
