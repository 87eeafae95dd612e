import GraphQL.Proofs.Expansion
import GraphQL.Proofs.Lockstep
import GraphQL.Proofs.Nodeless
import GraphQL.Proofs.Refinement
import Mathlib.Data.List.Permutation

/-!
# Compiled requests are executed in lockstep

A machine that executes a request and one that executes the compiled request do the same work but
for selections: where one has selections still to gather, the other has compiled ones, which may
hold echoes. Selections are told apart by nothing else, since no field asks for its node.
-/

namespace GraphQL

open Reference

/-- The site with other sub-selections for its field. -/
def Site.selecting (site : Site) (selections : List Selection) : Site :=
  { site with field := { site.field with selections } }

/-- The object of this type has no field that asks for its node. -/
def Purpose.isNodeless : Purpose → Bool
  | complete => true
  | enter type => (TypeRef.resolved (.object type)).isNodeless

section Compiled

variable (env : Environment)

/-- The selections of a request in an environment, and what is selected instead. -/
def CompiledSelections (selections others : List Selection) : Prop :=
  env.document.Compiles env.schema env.context.bindings selections others

def CompiledGroup (group other : FieldGroup) : Prop :=
  env.document.CompilesGroup env.schema env.context.bindings group other

/-- A site where no field asks for its node, with compiled sub-selections. -/
inductive CompiledSite : Site → Site → Prop where
  | intro {site : Site} {selections : List Selection} (nodeless : site.type.isNodeless)
      (compiled : CompiledSelections env site.field.selections selections) :
      CompiledSite site (site.selecting selections)

/-- A field that has been prepared. -/
def CompiledField (prepared other : Site × Resolution) : Prop :=
  CompiledSite env prepared.1 other.1 ∧ prepared.2 = other.2

/-- Pieces of work that differ by what they select. -/
inductive CompiledWork : Work → Work → Prop where
  | select {frame : ObjectFrame} {selections others : List Selection} (serial : Bool)
      (nodeless : (TypeRef.resolved frame.type).isNodeless)
      (compiled : CompiledSelections env selections others) :
      CompiledWork (.select frame selections serial) (.select frame others serial)
  | prepare {frame : ObjectFrame} {phase : Phase} {groups others : List FieldGroup}
      {prepared prepared' : List (Site × Resolution)}
      (nodeless : (TypeRef.resolved frame.type).isNodeless)
      (compiled : List.Forall₂ (CompiledGroup env) groups others)
      (sites : List.Forall₂ (CompiledField env) prepared prepared') :
      CompiledWork (.prepare frame phase groups prepared) (.prepare frame phase others prepared')
  | field {frame : ObjectFrame} {phase : Phase} {group other : FieldGroup}
      (nodeless : (TypeRef.resolved frame.type).isNodeless)
      (compiled : CompiledGroup env group other) :
      CompiledWork (.field frame phase group) (.field frame phase other)
  | settle {site other : Site} {purpose : Purpose} (resolution : Resolution)
      (nodeless : purpose.isNodeless) (compiled : CompiledSite env site other) :
      CompiledWork (.settle site purpose resolution) (.settle other purpose resolution)
  | await {site other : Site} {purpose : Purpose} (progress : Progress) (stages : List Stage)
      (value : FieldValue) (nodeless : purpose.isNodeless)
      (compiled : CompiledSite env site other) :
      CompiledWork (.await site purpose progress stages value)
        (.await other purpose progress stages value)
  | resume {site other : Site} {purpose : Purpose} (value : FieldValue)
      (nodeless : purpose.isNodeless) (compiled : CompiledSite env site other) :
      CompiledWork (.resume site purpose value) (.resume other purpose value)
  | complete {site other : Site} (content : Content) (compiled : CompiledSite env site other) :
      CompiledWork (.complete site content) (.complete other content)

/-- What a step comes to in the environment, and what it comes to for the compiled request. -/
def CompiledStep (reached other : Task × State) : Prop :=
  reached.1.Alike (CompiledWork env) other.1 ∧ reached.2 = other.2

end Compiled

theorem CompiledField.settling {env : Environment} {prepared other : Site × Resolution}
    (h : CompiledField env prepared other) :
    (Preparation.settling prepared).Alike (CompiledWork env) (Preparation.settling other) := by
  refine .work ?_
  rw [h.2]
  exact .settle _ rfl h.1

section Steps

variable {env : Environment} {document : Document}

section Fields

variable {frame : ObjectFrame} {group other : FieldGroup} (h : CompiledGroup env group other)

include h

theorem lookup_compiled : lookup { env with document } frame other = lookup env frame group := by
  rw [lookup, lookup, h.node]
  rfl

variable {found : FieldLookup} (hf : FieldDef.Nodeless found.definition)

include hf

theorem arguments_compiled :
    arguments { env with document } frame other found = arguments env frame group found := by
  rw [arguments, arguments, Preparation.arguments, Preparation.arguments, h.node, h.key, hf.extras]
  rfl

theorem site_compiled (type : TypeRef) : site { env with document } frame other found type =
    (site env frame group found type).selecting other.selections := by
  rw [site, site, arguments_compiled h hf, h.node, h.key]
  rfl

theorem answer_compiled (type : TypeRef) :
    answer { env with document } frame other found type = answer env frame group found type := by
  unfold answer
  rw [arguments_compiled h hf, h.node, h.key]
  rfl

theorem fieldDeeds_compiled (type : TypeRef) :
    Work.fieldDeeds { env with document } frame other found type =
      Work.fieldDeeds env frame group found type := by
  unfold Work.fieldDeeds
  rw [arguments_compiled h hf, answer_compiled h hf, h.node, h.key]
  rfl

end Fields

section Shaping

variable {site : Site} {selections : List Selection}

theorem shaped_compiled (content : Content) (type : TypeRef) :
    Shaped.of { env with document } (site.selecting selections) content type =
      Shaped.of env site content type := by
  induction type with
  | nonNull inner ih => exact ih
  | list item _ => rfl
  | resolved definition => cases definition <;> rfl
  | late name =>
    rw [Shaped.of, Shaped.of]
    cases env.schema.visibleType? env.context name with
    | none => rfl
    | some definition => cases definition <;> rfl

theorem elements_selecting (type : TypeRef) (count : Nat) :
    elements (site.selecting selections) type count =
      (elements site type count).map (Site.selecting · selections) := by
  rw [elements, elements, List.map_map]
  rfl

theorem deeds_compiled (shaped : Shaped) :
    shaped.deeds { env with document } (site.selecting selections) = shaped.deeds env site := by
  cases shaped with
  | list itemType items =>
    rw [Shaped.deeds, Shaped.deeds, elements_selecting, List.map_map]
    rfl
  | _ => rfl

theorem settling_compiled {itemType : TypeRef} (hi : itemType.isNodeless)
    (h : CompiledSelections env site.field.selections selections) (items : List Resolution) :
    List.Forall₂ (CompiledWork env) (Shaped.settling site itemType items)
      (Shaped.settling (site.selecting selections) itemType items) := by
  rw [Shaped.settling, Shaped.settling, elements_selecting, List.zip_map_left, List.map_map,
    List.forall₂_map_left_iff, List.forall₂_map_right_iff, List.forall₂_same]
  intro element hm
  obtain ⟨place, -, hsite⟩ := mem_elements (List.of_mem_zip hm).1
  refine .settle element.2 rfl (.intro ?_ ?_)
  · rw [hsite]
    exact hi
  · rw [hsite]
    exact h

theorem outcome_compiled {shaped : Shaped} (hshaped : shaped.isNodeless)
    (hsite : CompiledSite env site (site.selecting selections))
    (h : CompiledSelections env site.field.selections selections) :
    (shaped.outcome env site).Alike (CompiledWork env)
      (shaped.outcome { env with document } (site.selecting selections)) := by
  cases shaped with
  | null errors => exact .done
  | leaf output => exact .done
  | list itemType items =>
    have hworks := settling_compiled hshaped h items
    exact .dispatch (List.rel_map (fun _ _ hwork => .work hwork) hworks) _ _
  | object type value => exact .work (.settle _ hshaped hsite)
  | fault raised => exact .fault raised

end Shaping

variable (hs : env.schema.isNodeless)

include hs

theorem nodeless_lookup {frame : ObjectFrame} {group : FieldGroup} {found : FieldLookup}
    {type : TypeRef} (hframe : (TypeRef.resolved frame.type).isNodeless)
    (hl : lookup env frame group = .ok (found, type)) :
    FieldDef.Nodeless found.definition ∧ type.isNodeless := by
  unfold lookup at hl
  split at hl
  · cases hl
  · next hfound =>
    have hdefinition := Schema.nodeless_field? hframe hfound
    split at hl
    · cases hl
    · next hresolved =>
      cases hl
      exact ⟨hdefinition, Schema.nodeless_resolve hs hdefinition.type hresolved⟩

theorem prepareField_compiled (document : Document) {frame : ObjectFrame} {group other : FieldGroup}
    (hframe : (TypeRef.resolved frame.type).isNodeless) (h : CompiledGroup env group other)
    {going going' : Phase → Work} {finished finished' : Option (Site × Resolution) → Task}
    (hgoing : ∀ phase, CompiledWork env (going phase) (going' phase))
    (hfinished : ∀ next next', Option.Rel (CompiledField env) next next' →
      (finished next).Alike (CompiledWork env) (finished' next')) (state : State) (phase : Phase) :
    CompiledStep env (Preparation.prepareField env frame group going finished state phase)
      (Preparation.prepareField { env with document } frame other going' finished' state
        phase) := by
  -- all that a resolver could tell the requests apart by is the node, and nodeless fields get none
  rw [Work.prepareField_eq, Work.prepareField_eq, lookup_compiled h]
  cases phase with
  | declare =>
    cases lookup env frame group with
    | error raised => exact ⟨.fault raised, rfl⟩
    | ok entry =>
      dsimp only
      rw [h.key]
      exact ⟨.work (hgoing .check), rfl⟩
  | check =>
    dsimp only
    split
    · exact ⟨hfinished _ _ .none, rfl⟩
    · exact ⟨.work (hgoing .call), rfl⟩
  | call =>
    cases hl : lookup env frame group with
    | error raised => exact ⟨.fault raised, rfl⟩
    | ok entry =>
      obtain ⟨found, type⟩ := entry
      obtain ⟨hfound, htype⟩ := nodeless_lookup hs hframe hl
      dsimp only
      rw [site_compiled h hfound, answer_compiled h hfound, fieldDeeds_compiled h hfound]
      exact ⟨hfinished _ _ (.some ⟨.intro htype h.selections, rfl⟩), rfl⟩

theorem complete_compiled {site other : Site} (h : CompiledSite env site other) (content : Content)
    (state : State) : CompiledStep env (Completion.complete env site content state site.type)
      (Completion.complete { env with document } other content state other.type) := by
  cases h with
  | intro nodeless compiled =>
    have hshaped := Shaped.nodeless_of hs site content nodeless
    rw [Shaped.complete_eq, Shaped.complete_eq, shaped_compiled, deeds_compiled]
    exact ⟨outcome_compiled hshaped (.intro nodeless compiled) compiled, rfl⟩

theorem prepare_compiled {frame : ObjectFrame} {phase : Phase} {groups others : List FieldGroup}
    {prepared prepared' : List (Site × Resolution)}
    (hframe : (TypeRef.resolved frame.type).isNodeless)
    (hg : List.Forall₂ (CompiledGroup env) groups others)
    (hp : List.Forall₂ (CompiledField env) prepared prepared') (state : State) :
    CompiledStep env (Preparation.prepare env frame phase groups prepared state)
      (Preparation.prepare { env with document } frame phase others prepared' state) := by
  cases hg with
  | nil =>
    exact ⟨.dispatch (List.rel_map (fun _ _ hsite => hsite.settling) hp) _ _, rfl⟩
  | cons hgroup hrest =>
    refine prepareField_compiled hs document hframe hgroup
      (fun _ => .prepare hframe (.cons hgroup hrest) hp) (fun next next' hnext => ?_) state phase
    refine .work (.prepare hframe hrest (List.rel_append hp ?_))
    cases hnext with
    | none => exact .nil
    | some hsite => exact .cons hsite .nil

theorem prepareAlone_compiled {frame : ObjectFrame} {phase : Phase} {group other : FieldGroup}
    (hframe : (TypeRef.resolved frame.type).isNodeless) (h : CompiledGroup env group other)
    (state : State) : CompiledStep env (Preparation.prepareAlone env frame phase group state)
      (Preparation.prepareAlone { env with document } frame phase other state) := by
  refine prepareField_compiled hs document hframe h (fun _ => .field hframe h)
    (fun next next' hnext => ?_) state phase
  cases hnext with
  | none => exact .done
  | some hsite => exact hsite.settling

variable (hacyclic : env.document.Acyclic) (hclosed : env.document.Closed)
  (hnone : document.fragments = [])

omit hs in
include hacyclic hclosed hnone in
theorem select_compiled {frame : ObjectFrame} {selections others : List Selection}
    (hframe : (TypeRef.resolved frame.type).isNodeless)
    (h : CompiledSelections env selections others) (serial : Bool) (state : State) :
    CompiledStep env (Preparation.select env frame selections serial state)
      (Preparation.select { env with document } frame others serial state) := by
  have hcollect : Concur (List.Forall₂ (CompiledGroup env))
      (Gathering.collect env.schema env.document env.context frame.type selections)
      (Gathering.collect env.schema document env.context frame.type others) :=
    Gathering.collect_compiles hacyclic hclosed hnone h
  rw [Preparation.select, Preparation.select]
  generalize Gathering.collect env.schema env.document env.context frame.type selections = reached,
    Gathering.collect _ document _ frame.type others = reached' at hcollect
  cases hcollect with
  | error raised => exact ⟨.fault raised, rfl⟩
  | @ok groups others hgroups =>
    have hkeys : groups.map FieldGroup.key = others.map FieldGroup.key :=
      map_eq_of_forall₂ hgroups fun hgroup => hgroup.key.symm
    dsimp only
    rw [hkeys]
    refine ⟨?_, rfl⟩
    cases serial with
    | false => exact .work (.prepare hframe hgroups .nil)
    | true =>
      exact .inOrder (List.rel_map (fun _ _ hgroup => .work (.field hframe hgroup)) hgroups)

omit hs in
theorem resume_compiled {site other : Site} {purpose : Purpose} (hp : purpose.isNodeless)
    (h : CompiledSite env site other) (value : FieldValue) (state : State) :
    CompiledStep env (Completion.resume site purpose value state)
      (Completion.resume other purpose value state) := by
  have hsite := h
  cases h with | @intro selections nodeless compiled
  have hroute : (site.selecting selections).route value = site.route value := rfl
  rw [Completion.resume, Completion.resume, hroute]
  cases site.route value with
  | skipped => exact ⟨.done, rfl⟩
  | null errors => exact ⟨.done, rfl⟩
  | content content =>
    cases purpose with
    | complete => exact ⟨.work (.complete content hsite), rfl⟩
    | enter type =>
      cases content with
      | items items => exact ⟨.done, rfl⟩
      | value value => exact ⟨.work (.select false hp compiled), rfl⟩

include hacyclic hclosed hnone in
/-- A step of both has the same effect and leaves the same work but for selections. -/
theorem step_compiled {piece other : Work} (h : CompiledWork env piece other) (state : State) :
    CompiledStep env (piece.step env state) (other.step { env with document } state) := by
  cases h with
  | select serial nodeless compiled =>
    exact select_compiled hacyclic hclosed hnone nodeless compiled serial state
  | prepare nodeless compiled sites => exact prepare_compiled hs nodeless compiled sites state
  | field nodeless compiled => exact prepareAlone_compiled hs nodeless compiled state
  | settle resolution nodeless compiled =>
    have hsite := compiled
    cases compiled
    cases resolution with
    | ready value => exact ⟨.work (.resume value nodeless hsite), rfl⟩
    | deferred stages value => exact ⟨.work (.await _ stages value nodeless hsite), rfl⟩
  | await progress stages value nodeless compiled =>
    have hsite := compiled
    cases compiled
    cases progress with
    | queued ticket => exact ⟨.work (.await _ stages value nodeless hsite), rfl⟩
    | asleep wake => exact ⟨.work (.await _ stages value nodeless hsite), rfl⟩
    | started =>
      cases stages with
      | nil => exact ⟨.work (.resume value nodeless hsite), rfl⟩
      | cons stage rest =>
        cases stage with
        | pause milliseconds => exact ⟨.work (.await _ rest value nodeless hsite), rfl⟩
        | report errors => exact ⟨.work (.await _ rest value nodeless hsite), rfl⟩
  | resume value nodeless compiled => exact resume_compiled nodeless compiled value state
  | complete content compiled => exact complete_compiled hs compiled content state

include hacyclic hclosed hnone in
theorem lockstep_compiled : Lockstep env { env with document } Eq (CompiledWork env) where
  config := rfl
  clock hq := congrArg State.clock hq
  pass hq clock := congrArg (fun state : State => { state with clock := clock }) hq
  progress h := by cases h <;> rfl
  task h state _ hq := hq ▸ (step_compiled hs hacyclic hclosed hnone h state).1
  state h state _ hq := hq ▸ (step_compiled hs hacyclic hclosed hnone h state).2

end Steps

namespace Document

variable {document : Document} {name : Option String}

/-- Operations are chosen by their names alone. -/
theorem operation?_map {other : Document} {change : Operation → Operation}
    (ho : other.operations = document.operations.map change)
    (hn : ∀ operation, (change operation).name = operation.name) (name : Option String) :
    other.operation? name = (document.operation? name).map change := by
  cases name with
  | none =>
    rw [operation?, operation?, ho]
    rcases document.operations with _ | ⟨operation, _ | ⟨second, rest⟩⟩ <;> rfl
  | some name =>
    simp only [operation?, ho, List.find?_map, Function.comp_def, hn]
    cases document.operations.find? fun operation => operation.name = some name <;> rfl

theorem mem_operations {operation : Operation} (h : document.operation? name = .ok operation) :
    operation ∈ document.operations := by
  unfold operation? at h
  split at h
  · split at h
    · next hfound => exact Except.ok.inj h ▸ List.mem_of_find?_eq_some hfound
    · cases h
  · split at h
    · cases h
    · next hsingle =>
      rw [hsingle]
      exact List.mem_singleton.mpr (Except.ok.inj h).symm
    · cases h

end Document

namespace Executor

variable {schema : Schema} {request : Request}

/-- The compiled request starts if the request does. -/
theorem start_compiled (executor : Executor) (hs : schema.isNodeless)
    (hclosed : request.document.Closed) :
    Concur (fun reached reached' => reached.1.schema = schema ∧
        reached.1.document = request.document ∧
        reached'.1 = { reached.1 with document := (request.compiled schema).document } ∧
        Machine.Alike Eq (CompiledWork reached.1) reached.2 reached'.2)
      (executor.start schema request) (executor.start schema (request.compiled schema)) := by
  have hoperation : (request.compiled schema).document.operation? request.operationName =
      (request.document.operation? request.operationName).map fun operation =>
        operation.compiled request.document schema request.context :=
    Document.operation?_map rfl (fun operation => operation.compiled_name _ _ _) _
  rw [start_eq, start_eq, Request.compiled_operationName, Request.compiled_context,
    Request.compiled_root, hoperation]
  cases ho : request.document.operation? request.operationName with
  | error raised => exact .error raised
  | ok operation =>
    dsimp only [Except.map]
    rw [Operation.compiled_withDefaults, Operation.compiled_kind]
    cases ht : schema.rootType (operation.withDefaults request.context) operation.kind with
    | error raised => exact .error raised
    | ok rootType =>
      have hdefined := hclosed.operations operation (Document.mem_operations ho)
      have hcompiled : CompiledSelections (executor.environment schema request operation)
          operation.selections
          (operation.compiled request.document schema request.context).selections :=
        ⟨hdefined, operation.selections, .refl [] _, rfl⟩
      exact .ok ⟨rfl, rfl, rfl,
        .work (.select _ (Schema.nodeless_rootType hs ht) hcompiled), rfl⟩

/-- The machines of a request and of the compiled request are in lockstep. -/
theorem lockstep_of_start (executor : Executor) (hs : schema.isNodeless)
    (hacyclic : request.document.Acyclic) (hclosed : request.document.Closed) :
    StartAlike Eq (executor.start schema request)
      (executor.start schema (request.compiled schema)) := by
  have hstart := start_compiled executor hs hclosed
  generalize executor.start schema request = reached,
    executor.start schema (request.compiled schema) = reached' at hstart
  cases hstart with
  | error raised => exact .error raised
  | @ok reached reached' h =>
    obtain ⟨env, machine⟩ := reached
    obtain ⟨_, other⟩ := reached'
    obtain ⟨rfl, hdocument, rfl, halike⟩ := h
    dsimp only at hdocument
    rw [← hdocument] at hacyclic hclosed
    exact .ok ⟨_, lockstep_compiled hs hacyclic hclosed rfl, halike⟩

/-- **Fragments and conditions can be compiled away.** The compiled request has no spreads and no
directives, and is answered as the request is: with the same response or fault, after as many moves
and whoever chooses them. -/
theorem compiled_request_agrees (executor : Executor) (hs : schema.isNodeless)
    (hacyclic : request.document.Acyclic) (hclosed : request.document.Closed) :
    (∀ operation ∈ (request.compiled schema).document.operations,
        ∀ selection ∈ operation.selections, selection.Bare) ∧
      (∀ moves, executor.execute schema (request.compiled schema) moves =
        executor.execute schema request moves) ∧
      ∀ result, executor.Reaches schema (request.compiled schema) result ↔
        executor.Reaches schema request result := by
  have hstart := lockstep_of_start executor hs hacyclic hclosed
  refine ⟨hclosed.bare_operations schema hacyclic,
    fun moves => execute_eq_of_alike hstart.symm moves, fun result => ?_⟩
  exact ⟨reaches_of_alike hstart.symm, reaches_of_alike hstart⟩

end Executor

namespace Sample

def named : FragmentDef where
  name := "Named"
  condition := "User"
  selections := [.field { name := "name" }]

def profile : FragmentDef where
  name := "Profile"
  condition := "User"
  selections := [.spread "Named" [], .field { name := "name" }]

/-- The name of a user, three times over: by a fragment, and by one that spreads the other unless
the request is a brief one. -/
def thrice : Operation where
  selections := [.field { name := "user", selections := [.spread "Named" [],
    .spread "Profile" [{ name := "skip", arguments := [("if", .variable "brief")] }]] }]

def spreading (brief : Bool) : Request where
  document := { operations := [thrice], fragments := [named, profile] }
  context := { bindings := [("brief", .bool brief)] }

theorem named_mentions {name : String} : ∀ selection ∈ named.selections,
    ¬ selection.Mentions name := by
  intro selection hm hmentions
  obtain rfl := List.mem_singleton.mp hm
  cases hmentions with
  | field hinner => cases hinner

theorem profile_mentions {name : String} : ∀ selection ∈ profile.selections,
    selection.Mentions name → name = "Named" := by
  intro selection hm hmentions
  rcases List.mem_cons.mp hm with rfl | hm
  · cases hmentions
    rfl
  · exact absurd hmentions (named_mentions selection hm)

theorem thrice_mentions {name : String} : ∀ selection ∈ thrice.selections,
    selection.Mentions name → name = "Named" ∨ name = "Profile" := by
  intro selection hm hmentions
  obtain rfl := List.mem_singleton.mp hm
  cases hmentions with
  | field hinner h =>
    simp only [List.mem_cons, List.not_mem_nil, or_false] at hinner
    rcases hinner with rfl | rfl
    · cases h
      exact .inl rfl
    · cases h
      exact .inr rfl

theorem spreading_acyclic (brief : Bool) : (spreading brief).document.Acyclic := by
  refine Document.acyclic_of_rank (fun name => if name = "Profile" then 1 else 0) ?_
  intro first second hspreads
  obtain ⟨fragment, hf, selection, hm, hmentions⟩ := hspreads
  have hname : Named.name fragment = first := by simpa using List.find?_some hf
  have hfragment := Document.mem_fragments hf
  simp only [spreading, List.mem_cons, List.not_mem_nil, or_false] at hfragment
  rcases hfragment with rfl | rfl
  · exact absurd hmentions (named_mentions selection hm)
  · obtain rfl := profile_mentions selection hm hmentions
    rw [← hname]
    decide

theorem spreading_closed (brief : Bool) : (spreading brief).document.Closed where
  operations := by
    intro operation ho selection hs name hmentions
    obtain rfl := List.mem_singleton.mp ho
    rcases thrice_mentions selection hs hmentions with rfl | rfl
    · exact ⟨named, rfl⟩
    · exact ⟨profile, rfl⟩
  fragments := by
    intro fragment hf selection hs name hmentions
    simp only [spreading, List.mem_cons, List.not_mem_nil, or_false] at hf
    rcases hf with rfl | rfl
    · exact absurd hmentions (named_mentions selection hs)
    · obtain rfl := profile_mentions selection hs hmentions
      exact ⟨named, rfl⟩

/-- A brief request is left with the first of the spreads. -/
example : ((spreading true).compiled schema).document.operations.map Operation.selections =
    [[.field { name := "user", selections :=
      [.inline (some "User") [] [.field { name := "name" }]] }]] := by
  rfl

end Sample

namespace Executor

/-- The theorem at a fragment that is spread twice, once inside of another one, for a user whose
name is not known. -/
theorem compiled_request_agrees_of_spreads :
    (Sample.executor (.ready Sample.unknown)).execute Sample.schema
        ((Sample.spreading false).compiled Sample.schema) 20 =
      (Sample.executor (.ready Sample.unknown)).execute Sample.schema (Sample.spreading false) 20 ∧
    ((Sample.executor (.ready Sample.unknown)).execute Sample.schema
        ((Sample.spreading false).compiled Sample.schema) 20).map
          (Except.map fun execution => execution.response.data) =
      some (.ok (.obj [("user", .null)])) := by
  have hs : Sample.schema.isNodeless := by decide
  obtain ⟨-, hexecute, -⟩ := compiled_request_agrees (Sample.executor (.ready Sample.unknown)) hs
    (Sample.spreading_acyclic false) (Sample.spreading_closed false)
  refine ⟨hexecute 20, ?_⟩
  cbv

end Executor

end GraphQL
