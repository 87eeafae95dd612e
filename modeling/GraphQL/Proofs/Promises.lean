import GraphQL.Proofs.Delays
import GraphQL.Proofs.Results

/-!
# Promises

What a piece of work will come to by the reference semantics, whenever it is done. A step of work
keeps its promise: with what the step has reported and called, the work that it leaves promises the
same. Gathering the fields of an object spends one of the objects that may lie inside each other.
-/

namespace GraphQL

def Event.calls : Event → List Call
  | called path parentType fieldName _ _ _ => [⟨path, parentType, fieldName⟩]
  | _ => []

def Deed.log : Deed → Log
  | report errors => { errors }
  | note event => { calls := event.calls }
  | _ => {}

def Deed.logs (deeds : List Deed) : Log := deeds.foldr (fun deed later => deed.log ++ later) {}

@[simp] theorem Deed.logs_nil : Deed.logs [] = {} := rfl
@[simp] theorem Deed.logs_cons (deed : Deed) (rest : List Deed) :
    Deed.logs (deed :: rest) = deed.log ++ Deed.logs rest := rfl

namespace State

def log (state : State) : Log where
  errors := state.tree.errors
  calls := state.history.reverse.flatMap fun entry => entry.2.calls

theorem log_note (state : State) (event : Event) :
    (state.note event).log = state.log ++ { calls := event.calls } := by
  ext1 <;> simp [log, note]

theorem errors_write (tree : ResultTree) (path : Path) (entry : Entry) (propagating : Bool) :
    (tree.write path entry propagating).errors = tree.errors := by
  cases propagating with
  | false =>
    simp only [ResultTree.write, ResultTree.write?, ResultTree.place?, Bool.false_eq_true, if_false]
    cases Slot.update? _ path tree.data <;> rfl
  | true =>
    simp only [ResultTree.write, ResultTree.write?, ResultTree.collapse?, if_true]
    cases tree.collapsePoint path with
    | nil => rfl
    | cons segment rest =>
      dsimp only
      cases Slot.update? _ (segment :: rest) tree.data <;> rfl

theorem log_perform (state : State) (deed : Deed) :
    (state.perform deed).log = state.log ++ deed.log := by
  cases deed with
  | report errors => ext1 <;> simp [log, perform, report, ResultTree.report, Deed.log]
  | declare path type =>
    ext1 <;> simp [log, perform, declare, note, ResultTree.record, Deed.log, Event.calls]
  | write path entry propagating =>
    have herrors := errors_write state.tree path entry propagating
    unfold ResultTree.write at herrors
    ext1 <;> simp [log, perform, write, note, Deed.log, Event.calls, herrors]
  | note event => exact log_note state event
  | draw => ext1 <;> simp [log, perform, Deed.log]

theorem log_performAll (state : State) (deeds : List Deed) :
    (state.performAll deeds).log = state.log ++ Deed.logs deeds := by
  induction deeds generalizing state with
  | nil => simp
  | cons deed rest ih =>
    rw [performAll_cons, ih, log_perform, Deed.logs_cons, Log.append_assoc]

end State

open Evaluation Reference

namespace Shaped

variable (env : Environment)
  (fields : ObjectFrame → List Selection → Evaluation (List (String × Completed)))

/-- What a value of a shape comes to. -/
def evaluation (site : Site) : Shaped → Evaluation Completed
  | null errors => ended site errors
  | leaf output => .done (.value output) {}
  | list itemType items =>
    (all (((elements site itemType items.length).zip items).map fun element =>
      settled element.1 element.2 (Reference.complete env fields itemType element.1))).map
        (Completed.list site.type.isNonNull)
  | object type value =>
    routed site (env.registry.authorize type value env.context).settled (entered fields site type)
  | fault raised => .fault raised

theorem named_eq (site : Site) (content : Content) (type : TypeDef) :
    named env fields site type content =
      (ofNamed env site content type).evaluation env fields site := by
  have hleaf : ∀ type : Leaf.LeafDef, Reference.leaf env site type content =
      (ofLeaf env site type content).evaluation env fields site := by
    intro type
    cases content with
    | items items => rfl
    | value value =>
      simp only [Reference.leaf, ofLeaf]
      cases Leaf.coerce env.registry.scalars type value with
      | error message => rfl
      | ok output => cases output <;> rfl
  have hobject : ∀ type : ObjectDef, Reference.object env fields site type content =
      (ofObject site type content).evaluation env fields site := by
    intro type
    cases content <;> rfl
  have habstract : Reference.abstract env fields site type content =
      (ofAbstract env site type content).evaluation env fields site := by
    cases content with
    | items items => rfl
    | value value =>
      simp only [Reference.abstract, ofAbstract]
      cases env.schema.concreteType? env.context type value with
      | none => rfl
      | some concrete => rfl
  cases type with
  | scalar definition => exact hleaf _
  | enum definition => exact hleaf _
  | union definition => exact habstract
  | interface definition => exact habstract
  | object definition => exact hobject definition
  | inputObject definition => rfl

/-- The reference completes a value as its shape says. -/
theorem complete_evaluation (site : Site) (content : Content) (type : TypeRef) :
    Reference.complete env fields type site content =
      (of env site content type).evaluation env fields site := by
  induction type with
  | nonNull inner ih => exact ih
  | list item _ =>
    simp only [Reference.complete, of]
    cases Completion.items? content <;> rfl
  | resolved definition => exact named_eq env fields site content definition
  | late name =>
    simp only [Reference.complete, of]
    cases env.schema.visibleType? env.context name with
    | none => rfl
    | some definition => exact named_eq env fields site content definition

end Shaped

/-- The fields of an object whose selections may hold so many objects inside each other. -/
def Environment.fieldsAt (env : Environment) (depth : Nat) (frame : ObjectFrame)
    (selections : List Selection) : Evaluation (List (String × Completed)) :=
  Reference.select env depth frame selections false

namespace Work

variable (env : Environment) (depth : Nat)

/-- What a settled value that is no null comes to. -/
def proceed (site : Site) : Purpose → Content → Evaluation Completed
  | .complete, content => Reference.complete env (env.fieldsAt depth) site.type site content
  | .enter type, content => entered (env.fieldsAt depth) site type content

/-- A value that has yet to settle. -/
def awaited (site : Site) (purpose : Purpose) (reports : List ResponseError) (value : FieldValue) :
    Evaluation Completed :=
  (routed site value (proceed env depth site purpose)).after
    { errors := collected (if purpose.isAuthorizing then none else site.field.collector) reports }

/-- The result of a single place. -/
def placed (path : Path) (x : Evaluation Completed) : Evaluation Results :=
  x.map fun completed => [(path, fun _ => completed)]

/-- A prepared field whose resolver has reported what it reports at once. -/
def answered (prepared : Site × Resolution) : Site × Reply :=
  (prepared.1, { resolution := prepared.2 })

/-- What work will come to. -/
def promise : Work → Evaluation Results
  | select frame selections serial =>
    (Reference.select env depth frame selections serial).map fun fields =>
      [(frame.path, fun required => .object required fields)]
  | prepare frame phase groups prepared =>
    ((all (groups.map (Reference.prepare env frame))).bind fun more =>
      all ((prepared.map answered ++ more).map (Reference.field env (env.fieldsAt depth)))).map
        (Results.fixed (prepare frame phase groups prepared).owned)
  | field frame _ group =>
    placed (frame.path.key group.key)
      ((Reference.prepare env frame group).bind (Reference.field env (env.fieldsAt depth)))
  | settle site purpose resolution =>
    placed site.path (awaited env depth site purpose resolution.reports resolution.settled)
  | await site purpose _ stages value =>
    placed site.path (awaited env depth site purpose (stages.flatMap Stage.reports) value)
  | resume site purpose value =>
    placed site.path (routed site value (proceed env depth site purpose))
  | complete site content =>
    placed site.path (Reference.complete env (env.fieldsAt depth) site.type site content)

end Work

namespace Strand

variable (env : Environment) (depth : Nat)

/-- What strands will come to; nothing after the first fault. -/
def promises : List Strand → Evaluation Results
  | [] => .done [] {}
  | .error raised :: _ => .fault raised
  | .ok piece :: rest =>
    (piece.promise env depth).bind fun own => (promises rest).map (own ++ ·)

variable {env depth}

theorem promises_append (xs ys : List Strand) :
    promises env depth (xs ++ ys) =
      (promises env depth xs).bind fun a => (promises env depth ys).map (a ++ ·) := by
  induction xs with
  | nil => simp [promises]
  | cons x xs ih =>
    cases x with
    | error raised => rfl
    | ok piece =>
      simp only [List.cons_append, promises, ih, bind_assoc, bind_map, map_bind, map_map,
        List.append_assoc]

theorem promises_middle (left middle right : List Strand) :
    promises env depth (left ++ middle ++ right) =
      (promises env depth left).bind fun a => (promises env depth middle).bind fun b =>
        (promises env depth right).map fun c => a ++ b ++ c := by
  simp only [promises_append, bind_assoc, bind_map]

theorem promises_untilFault (xs : List Strand) :
    promises env depth (untilFault xs) = promises env depth xs := by
  induction xs with
  | nil => rfl
  | cons x xs ih =>
    cases x with
    | error raised => rfl
    | ok piece => simp only [untilFault, promises, ih]

theorem promises_trims {full part : List Strand} (h : Trims full part) :
    promises env depth part = promises env depth full := by
  rw [← promises_untilFault, h.untilFault, promises_untilFault]

theorem promises_single (piece : Work) :
    promises env depth [.ok piece] = piece.promise env depth := by
  simp [promises]

@[simp] theorem promises_work (piece : Work) :
    promises env depth (Task.work piece).strands = piece.promise env depth := promises_single piece
@[simp] theorem promises_done : promises env depth Task.done.strands = .done [] {} := rfl
@[simp] theorem promises_fault (raised : Fault) :
    promises env depth (Task.fault raised).strands = .fault raised := rfl

/-- Pieces of work each of which fills one place. -/
theorem promises_placed {α : Type} {piece : α → Work} {path : α → Path}
    {value : α → Evaluation Completed}
    (h : ∀ a, (piece a).promise env depth = Work.placed (path a) (value a)) (as : List α) :
    promises env depth ((as.map piece).map .ok) =
      (all (as.map value)).map (Results.fixed (as.map path)) := by
  induction as with
  | nil => rfl
  | cons a as ih =>
    simp only [List.map_cons, promises, h, Work.placed, all_cons, bind_map, map_bind, map_map]
    congr 1
    funext completed
    simp only [List.map_map] at ih ⊢
    rw [ih, map_map]
    rfl

end Strand

namespace Reference

variable {env : Environment}

theorem completeAll_length {frame : ObjectFrame} {groups : List FieldGroup} {serial : Bool}
    {complete : Site × Reply → Evaluation Completed} {completed : List Completed} {log : Log}
    (h : completeAll env frame groups serial complete = .done completed log) :
    completed.length = groups.length := by
  cases serial with
  | true => simpa using all_length h
  | false =>
    obtain ⟨prepared, _, _, hp, hc, -⟩ := bind_eq_done h
    have hprepared := all_length hp
    have hcompleted := all_length hc
    simp only [List.length_map] at hprepared hcompleted
    rw [hcompleted, hprepared]

end Reference

namespace Work

variable {env : Environment} {depth : Nat}

theorem placed_paths {path : Path} {x : Evaluation Completed} {results : Results} {log : Log}
    (h : placed path x = .done results log) : results.paths = [path] := by
  obtain ⟨completed, -, rfl⟩ := map_eq_done h
  rfl

theorem promise_prepare_done {frame : ObjectFrame} {phase : Phase} {groups : List FieldGroup}
    {prepared : List (Site × Resolution)} {results : Results} {log : Log}
    (h : (prepare frame phase groups prepared).promise env depth = .done results log) :
    ∃ completed, results = .fixed (prepare frame phase groups prepared).owned completed ∧
      completed.length = (prepare frame phase groups prepared).owned.length := by
  obtain ⟨completed, hb, rfl⟩ := map_eq_done h
  obtain ⟨more, _, _, hm, hc, -⟩ := bind_eq_done hb
  refine ⟨completed, rfl, ?_⟩
  have hmore := all_length hm
  have hcompleted := all_length hc
  simp only [List.length_map, List.length_append] at hmore hcompleted
  simp [hcompleted, hmore, owned]

/-- Work comes to something at the places that it owns. -/
theorem promise_paths {piece : Work} {results : Results} {log : Log}
    (h : piece.promise env depth = .done results log) : results.paths = piece.owned := by
  cases piece with
  | select frame selections serial =>
    obtain ⟨fields, -, rfl⟩ := map_eq_done h
    rfl
  | prepare frame phase groups prepared =>
    obtain ⟨completed, rfl, hl⟩ := promise_prepare_done h
    exact Results.paths_fixed hl
  | field => exact placed_paths h
  | settle => exact placed_paths h
  | await => exact placed_paths h
  | resume => exact placed_paths h
  | complete => exact placed_paths h

end Work

theorem Strand.promises_paths {env : Environment} {depth : Nat} {strands : List Strand}
    {results : Results} {log : Log} (h : promises env depth strands = .done results log) :
    results.paths = (works strands).flatMap Work.owned := by
  induction strands generalizing results log with
  | nil =>
    obtain ⟨rfl, rfl⟩ := Evaluation.done.inj h
    rfl
  | cons strand rest ih =>
    cases strand with
    | error raised => cases h
    | ok piece =>
      obtain ⟨own, _, _, ho, hr, -⟩ := bind_eq_done h
      obtain ⟨others, hothers, rfl⟩ := map_eq_done hr
      rw [Results.paths_append, Work.promise_paths ho, ih hothers, works_ok, List.flatMap_cons]

end GraphQL
