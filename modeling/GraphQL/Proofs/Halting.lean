import GraphQL.Proofs.Acyclic
import GraphQL.Proofs.Simulation

/-!
# Halting

When all runs of an execution end: where the document is acyclic, and where the reference comes to a
result. What is left to do of a value halts if the objects that it leads to do, and there are only
finitely many of these.
-/

namespace GraphQL

open Evaluation Reference Strand

/-- Completing the content at the site, by what is left of its type, leads to the selections of the
object, through whatever lists there are. -/
inductive Leads (env : Environment) :
    Site → TypeRef → Content → ObjectFrame → List Selection → Prop where
  | object {site : Site} {type : TypeRef} {content : Content} {objectType : ObjectDef}
      {value exposed : Json} (hs : Shaped.of env site content type = .object objectType value)
      (hr : site.route (env.registry.authorize objectType value env.context).settled =
        .content (.value exposed)) :
      Leads env site type content
        { path := site.path, type := .object objectType, value := exposed } site.field.selections
  | item {site : Site} {type itemType : TypeRef} {content inner : Content}
      {items : List Resolution} {element : Site × Resolution} {frame : ObjectFrame}
      {selections : List Selection}
      (hs : Shaped.of env site content type = .list itemType items)
      (he : element ∈ (elements site itemType items.length).zip items)
      (hr : element.1.route element.2.settled = .content inner)
      (hl : Leads env element.1 itemType inner frame selections) :
      Leads env site type content frame selections

/-- All objects to which a value leads have the selections of its field. -/
theorem Leads.selections_eq {env : Environment} {site : Site} {type : TypeRef} {content : Content}
    {frame : ObjectFrame} {selections : List Selection}
    (h : Leads env site type content frame selections) : selections = site.field.selections := by
  induction h with
  | object hs hr => rfl
  | item hs he hr hl ih =>
    obtain ⟨place, -, heq⟩ := mem_elements (List.of_mem_zip he).1
    rw [ih, heq]
    rfl

namespace Shaped

/-- Only the wrapper of a list makes a list. -/
theorem ofNamed_ne_list (env : Environment) (site : Site) (content : Content) (type : TypeDef)
    (itemType : TypeRef) (items : List Resolution) :
    ofNamed env site content type ≠ .list itemType items := by
  rcases ofNamed_cases env site content type with
    ⟨_, he⟩ | ⟨_, he⟩ | ⟨_, he⟩ | ⟨_, _, -, -, he⟩ <;> simp [he]

/-- What holds of a shape of any type holds by induction on the lists around its name. -/
theorem of_induction (env : Environment) {motive : TypeRef → Site → Content → Prop}
    (plain : ∀ type site content,
      (∀ itemType items, of env site content type ≠ .list itemType items) →
        motive type site content)
    (list : ∀ type site content itemType items,
      of env site content type = .list itemType items →
        (∀ site content, motive itemType site content) → motive type site content)
    (type : TypeRef) (site : Site) (content : Content) : motive type site content := by
  suffices h : ∀ outer : TypeRef, (∀ site content, of env site content outer =
      of env site content type) → ∀ site content, motive outer site content from
    h type (fun _ _ => rfl) site content
  clear site content
  induction type with
  | nonNull inner ih => exact ih
  | resolved definition =>
    intro outer ho site content
    refine plain outer site content fun itemType items => ?_
    rw [ho]
    exact ofNamed_ne_list env site content definition itemType items
  | late name =>
    intro outer ho site content
    refine plain outer site content fun itemType items => ?_
    rw [ho, of]
    split
    · exact ofNamed_ne_list env site content _ itemType items
    · simp
  | list item ih =>
    intro outer ho site content
    cases hi : Completion.items? content with
    | none =>
      refine plain outer site content fun itemType items => ?_
      rw [ho, of, hi]
      simp
    | some items =>
      refine list outer site content item items ?_ (ih item fun _ _ => rfl)
      rw [ho, of, hi]

end Shaped

/-- The work that a settled value leaves. -/
def Work.onward (site : Site) : Purpose → Content → List Work
  | .complete, content => [.complete site content]
  | .enter type, .value exposed =>
    [.select { path := site.path, type := .object type, value := exposed } site.field.selections
      false]
  | .enter _, .items _ => []

namespace Halts

variable {env : Environment}

/-- Work halts if what any step of it leaves halts. -/
theorem of_steps {piece : Work} (steps : Nat)
    (h : ∀ state deeds outcome, Work.Step env state piece deeds outcome ∨
      Work.Prunes env state piece deeds outcome → Halts env steps (works outcome.strands)) :
    Halts env (steps + 1) [piece] := by
  refine .single fun state => ?_
  obtain ⟨deeds, -, hk⟩ := Work.step_account env state piece
  exact h state deeds _ hk

theorem resume {site : Site} {purpose : Purpose} {value : FieldValue}
    (h : ∀ content, site.route value = .content content →
      ∃ steps, Halts env steps (Work.onward site purpose content)) :
    ∃ steps, Halts env steps [.resume site purpose value] := by
  have hbound : ∃ steps, ∀ content, site.route value = .content content →
      Halts env steps (Work.onward site purpose content) := by
    cases hr : site.route value with
    | skipped => exact ⟨0, fun content he => nomatch he⟩
    | null errors => exact ⟨0, fun content he => nomatch he⟩
    | content content =>
      obtain ⟨steps, hs⟩ := h content hr
      exact ⟨steps, fun other he => Routed.content.inj he ▸ hs⟩
  obtain ⟨steps, hs⟩ := hbound
  refine ⟨_, of_steps steps fun state deeds outcome hk => ?_⟩
  rcases hk with hk | hk
  · cases hk with
    | skip | null | refuse => exact .nil steps
    | content hr => exact hs _ hr
    | enter hr => exact hs _ hr
  · cases hk

theorem await {site : Site} {purpose : Purpose} {value : FieldValue}
    (h : ∃ steps, Halts env steps [.resume site purpose value]) (stages : List Stage) :
    ∃ steps, Halts env steps [.await site purpose .started stages value] := by
  induction stages with
  | nil =>
    obtain ⟨steps, hs⟩ := h
    refine ⟨_, of_steps steps fun state deeds outcome hk => ?_⟩
    rcases hk with hk | hk
    · cases hk
      exact hs
    · cases hk
  | cons stage rest ih =>
    obtain ⟨steps, hs⟩ := ih
    refine ⟨_, of_steps (steps + 1) fun state deeds outcome hk => ?_⟩
    rcases hk with hk | hk
    · cases hk with
      | report => exact hs.mono (Nat.le_succ steps)
      | sleep wake =>
        refine of_steps _ fun state deeds outcome hw => ?_
        rcases hw with hw | hw
        · cases hw
          exact hs
        · cases hw
    · cases hk

theorem settle {site : Site} {purpose : Purpose} {resolution : Resolution}
    (h : ∃ steps, Halts env steps [.resume site purpose resolution.settled]) :
    ∃ steps, Halts env steps [.settle site purpose resolution] := by
  cases resolution with
  | ready value =>
    obtain ⟨steps, hs⟩ := h
    refine ⟨_, of_steps steps fun state deeds outcome hk => ?_⟩
    rcases hk with hk | hk
    · cases hk
      exact hs
    · cases hk
  | deferred stages value =>
    obtain ⟨steps, hs⟩ := await h stages
    refine ⟨_, of_steps (steps + 1) fun state deeds outcome hk => ?_⟩
    rcases hk with hk | hk
    · cases hk with
      | queue ticket =>
        refine of_steps _ fun state deeds outcome hw => ?_
        rcases hw with hw | hw
        · cases hw
          exact hs
        · cases hw
    · cases hk

theorem complete {site : Site} {content : Content}
    (h : ∃ steps, Halts env steps
      (works ((Shaped.of env site content site.type).outcome env site).strands)) :
    ∃ steps, Halts env steps [.complete site content] := by
  obtain ⟨steps, hs⟩ := h
  refine ⟨_, of_steps steps fun state deeds outcome hk => ?_⟩
  rcases hk with hk | hk
  · cases hk
    exact hs
  · cases hk

/-- What a shape leaves halts if the objects do to which the value leads. -/
theorem shaped {site : Site} {content : Content} {type : TypeRef}
    (h : ∀ frame selections, Leads env site type content frame selections →
      ∃ steps, Halts env steps [.select frame selections false]) :
    ∃ steps, Halts env steps
      (works ((Shaped.of env site content type).outcome env site).strands) := by
  induction type, site, content using Shaped.of_induction env with
  | plain type site content hn =>
    cases hs : Shaped.of env site content type with
    | null errors => exact ⟨0, .nil 0⟩
    | leaf output => exact ⟨0, .nil 0⟩
    | fault raised => exact ⟨0, .nil 0⟩
    | list itemType items => exact absurd hs (hn itemType items)
    | object objectType value =>
      refine settle (resume fun inner hr => ?_)
      cases inner with
      | items items => exact ⟨0, .nil 0⟩
      | value exposed => exact h _ _ (.object hs hr)
  | list type site content itemType items hs ih =>
    rw [hs, Shaped.outcome, Task.strands_dispatch_work, works_map_ok]
    refine exists_of_forall fun piece hm => ?_
    obtain ⟨element, he, rfl⟩ := List.mem_map.mp hm
    obtain ⟨place, -, heq⟩ := mem_elements (List.of_mem_zip he).1
    have htype : element.1.type = itemType := by rw [heq]; rfl
    refine settle (resume fun inner hr => complete ?_)
    rw [htype]
    exact ih element.1 inner fun frame selections hl => h frame selections (.item hs he hr hl)

theorem value {site : Site} {resolution : Resolution}
    (h : ∀ content, site.route resolution.settled = .content content →
      ∀ frame selections, Leads env site site.type content frame selections →
        ∃ steps, Halts env steps [.select frame selections false]) :
    ∃ steps, Halts env steps [.settle site .complete resolution] :=
  settle (resume fun content hr => complete (shaped (h content hr)))

/-- What is left to do of a field that has been prepared. -/
def Answered (env : Environment) (frame : ObjectFrame) (group : FieldGroup) : Prop :=
  ∀ found type, lookup env frame group = .ok (found, type) → ∃ steps, Halts env steps
    [.settle (site env frame group found type) .complete
      (answer env frame group found type).1.resolution]

theorem field {frame : ObjectFrame} {group : FieldGroup} (h : Answered env frame group) :
    ∃ steps, Halts env steps [.field frame .declare group] := by
  have hbound : ∃ steps, ∀ found type, lookup env frame group = .ok (found, type) →
      Halts env steps [.settle (site env frame group found type) .complete
        (answer env frame group found type).1.resolution] := by
    cases hl : lookup env frame group with
    | error raised => exact ⟨0, fun found type he => nomatch he⟩
    | ok entry =>
      obtain ⟨steps, hs⟩ := h entry.1 entry.2 hl
      exact ⟨steps, fun found type he => by cases he; exact hs⟩
  obtain ⟨steps, hs⟩ := hbound
  have hcall : Halts env (steps + 1) [.field frame .call group] := by
    refine of_steps steps fun state deeds outcome hk => ?_
    rcases hk with hk | hk
    · cases hk with
      | fieldFault => exact .nil steps
      | field hl => exact hs _ _ hl
    · cases hk
  have hcheck : Halts env (steps + 1 + 1) [.field frame .check group] := by
    refine of_steps _ fun state deeds outcome hk => ?_
    rcases hk with hk | hk
    · cases hk with
      | fieldFault hphase => exact absurd rfl hphase
      | fieldAdmit => exact hcall
    · cases hk
      exact .nil _
  refine ⟨_, of_steps (steps + 1 + 1) fun state deeds outcome hk => ?_⟩
  rcases hk with hk | hk
  · cases hk with
    | fieldFault => exact .nil _
    | fieldDeclare => exact hcheck
  · cases hk

/-- Fields halt if what is left after the first has been called or left out does. -/
theorem prepare_cons {frame : ObjectFrame} {group : FieldGroup} {rest : List FieldGroup}
    {prepared : List (Site × Resolution)} {steps : Nat}
    (hcalled : ∀ found type, lookup env frame group = .ok (found, type) →
      Halts env steps [.prepare frame .declare rest (prepared ++
        [(site env frame group found type, (answer env frame group found type).1.resolution)])])
    (hpruned : Halts env steps [.prepare frame .declare rest prepared]) :
    ∃ steps, Halts env steps [.prepare frame .declare (group :: rest) prepared] := by
  have hcall : Halts env (steps + 1) [.prepare frame .call (group :: rest) prepared] := by
    refine of_steps steps fun state deeds outcome hk => ?_
    rcases hk with hk | hk
    · cases hk with
      | prepareFault => exact .nil steps
      | prepare hl => exact hcalled _ _ hl
    · cases hk
  have hcheck : Halts env (steps + 1 + 1) [.prepare frame .check (group :: rest) prepared] := by
    refine of_steps _ fun state deeds outcome hk => ?_
    rcases hk with hk | hk
    · cases hk with
      | prepareFault hphase => exact absurd rfl hphase
      | prepareAdmit => exact hcall
    · cases hk
      exact hpruned.mono (Nat.le_succ steps)
  refine ⟨_, of_steps (steps + 1 + 1) fun state deeds outcome hk => ?_⟩
  rcases hk with hk | hk
  · cases hk with
    | prepareFault => exact .nil _
    | prepareDeclare => exact hcheck
  · cases hk

theorem prepare {frame : ObjectFrame} {groups : List FieldGroup}
    {prepared : List (Site × Resolution)}
    (hp : ∀ entry ∈ prepared, ∃ steps, Halts env steps [.settle entry.1 .complete entry.2])
    (h : ∀ group ∈ groups, Answered env frame group) :
    ∃ steps, Halts env steps [.prepare frame .declare groups prepared] := by
  induction groups generalizing prepared with
  | nil =>
    obtain ⟨steps, hs⟩ : ∃ steps, Halts env steps
        (prepared.map fun entry => .settle entry.1 .complete entry.2) := by
      refine exists_of_forall fun piece hm => ?_
      obtain ⟨entry, he, rfl⟩ := List.mem_map.mp hm
      exact hp entry he
    refine ⟨_, of_steps steps fun state deeds outcome hk => ?_⟩
    rcases hk with hk | hk
    · cases hk
      rw [Task.strands_dispatch_work, works_map_ok]
      exact hs
    · cases hk
  | cons group rest ih =>
    have hrest : ∀ group ∈ rest, Answered env frame group := fun other ho =>
      h other (List.mem_cons_of_mem _ ho)
    obtain ⟨fewer, hf⟩ := ih hp hrest
    cases hl : lookup env frame group with
    | error raised => exact prepare_cons (fun found type he => by simp [hl] at he) hf
    | ok entry =>
      obtain ⟨found, type⟩ := entry
      have hmore : ∀ entry ∈ prepared ++ [(site env frame group found type,
          (answer env frame group found type).1.resolution)],
          ∃ steps, Halts env steps [.settle entry.1 .complete entry.2] := by
        intro entry he
        rcases List.mem_append.mp he with he | he
        · exact hp entry he
        · obtain rfl := List.mem_singleton.mp he
          exact h group List.mem_cons_self found type hl
      obtain ⟨steps, hs⟩ := ih hmore hrest
      refine prepare_cons (fun other otherType he => ?_) (hf.mono (Nat.le_max_right steps fewer))
      obtain ⟨rfl, rfl⟩ := Prod.mk.inj (Except.ok.inj (hl.symm.trans he))
      exact hs.mono (Nat.le_max_left _ _)

theorem select {frame : ObjectFrame} {selections : List Selection} (serial : Bool)
    (h : ∀ groups, Gathering.collect env.schema env.document env.context frame.type selections =
      .ok groups → ∀ group ∈ groups, Answered env frame group) :
    ∃ steps, Halts env steps [.select frame selections serial] := by
  cases hg : Gathering.collect env.schema env.document env.context frame.type selections with
  | error raised =>
    refine ⟨_, of_steps 0 fun state deeds outcome hk => ?_⟩
    rcases hk with hk | hk
    · cases hk with
      | gatherFault => exact .nil 0
      | gather he => simp [hg] at he
    · cases hk
  | ok groups =>
    obtain ⟨steps, hs⟩ : ∃ steps, Halts env steps (works
        (if serial then .inOrder ((groups.map (.field frame .declare)).map .work)
          else .work (.prepare frame .declare groups []) : Task).strands) := by
      cases serial with
      | true =>
        simp only [if_true, Task.strands_inOrder_work, works_map_ok]
        refine exists_of_forall fun piece hm => ?_
        obtain ⟨group, hgroup, rfl⟩ := List.mem_map.mp hm
        exact field (h groups hg group hgroup)
      | false => exact prepare (fun entry he => nomatch he) (h groups hg)
    refine ⟨_, of_steps steps fun state deeds outcome hk => ?_⟩
    rcases hk with hk | hk
    · cases hk with
      | gatherFault => exact .nil steps
      | gather he =>
        obtain rfl := Except.ok.inj (hg.symm.trans he)
        exact hs
    · cases hk

/-- Selections in which objects lie inside each other only so deep halt. -/
theorem of_shallow (depth : Nat) {frame : ObjectFrame} {selections : List Selection} (serial : Bool)
    (hs : ∀ selection ∈ selections, env.document.Shallow depth selection) :
    ∃ steps, Halts env steps [.select frame selections serial] := by
  induction depth using Nat.strongRecOn generalizing frame selections serial with
  | ind depth ih =>
    refine select serial fun groups hg group hm found type _ =>
      value fun content _ inner sub hl => ?_
    obtain ⟨less, hlt, hsub⟩ := Gathering.shallow_collect hg hs group hm
    refine ih less hlt false fun selection hsel => hsub selection ?_
    rwa [hl.selections_eq] at hsel

end Halts

namespace Reference

variable {env : Environment}
  {fields : ObjectFrame → List Selection → Evaluation (List (String × Completed))}

theorem settled_done {site : Site} {resolution : Resolution} {next : Content → Evaluation Completed}
    {completed : Completed} {log : Log} (h : settled site resolution next = .done completed log)
    {content : Content} (hr : site.route resolution.settled = .content content) :
    ∃ completed log, next content = .done completed log := by
  simp only [settled, routed, hr] at h
  obtain ⟨own, hn, -⟩ := after_eq_done h
  exact ⟨completed, own, hn⟩

/-- Where a value has been completed, so have been the fields of the objects to which it leads. -/
theorem complete_leads {site : Site} {type : TypeRef} {content : Content} {frame : ObjectFrame}
    {selections : List Selection} (hl : Leads env site type content frame selections)
    {completed : Completed} {log : Log}
    (h : complete env fields type site content = .done completed log) :
    ∃ inner log, fields frame selections = .done inner log := by
  induction hl generalizing completed log with
  | object hs hr =>
    rw [Shaped.complete_evaluation, hs] at h
    simp only [Shaped.evaluation, routed, hr, entered] at h
    obtain ⟨inner, hinner, -⟩ := map_eq_done h
    exact ⟨inner, log, hinner⟩
  | item hs he hr hl ih =>
    rw [Shaped.complete_evaluation, hs] at h
    obtain ⟨items, hitems, -⟩ := map_eq_done h
    obtain ⟨_, -, _, helement⟩ := all_done_of_mem hitems (List.mem_map_of_mem he)
    obtain ⟨_, _, hinner⟩ := settled_done helement hr
    exact ih hinner

/-- Where the fields of an object have been completed, so has been each of them. -/
theorem completeAll_done {frame : ObjectFrame} {groups : List FieldGroup} {serial : Bool}
    {next : Site × Reply → Evaluation Completed} {completed : List Completed} {log : Log}
    (h : completeAll env frame groups serial next = .done completed log) {group : FieldGroup}
    (hm : group ∈ groups) :
    ∃ prepared own result other, prepare env frame group = .done prepared own ∧
      next prepared = .done result other := by
  cases serial with
  | true =>
    obtain ⟨result, -, log, hgroup⟩ := all_done_of_mem h (List.mem_map_of_mem hm)
    obtain ⟨prepared, own, other, hp, hn, -⟩ := bind_eq_done hgroup
    exact ⟨prepared, own, result, other, hp, hn⟩
  | false =>
    obtain ⟨all, _, _, hall, hnext, -⟩ := bind_eq_done h
    obtain ⟨prepared, hmem, own, hp⟩ := all_done_of_mem hall (List.mem_map_of_mem hm)
    obtain ⟨result, -, other, hn⟩ := all_done_of_mem hnext (List.mem_map_of_mem hmem)
    exact ⟨prepared, own, result, other, hp, hn⟩

theorem completeAll_finished {frame : ObjectFrame} {groups : List FieldGroup} (serial : Bool)
    {next : Site × Reply → Evaluation Completed}
    (h : ∀ group ∈ groups, ∀ prepared own, prepare env frame group = .done prepared own →
      next prepared ≠ .unfinished) : completeAll env frame groups serial next ≠ .unfinished := by
  have hprepare : ∀ group, prepare env frame group ≠ .unfinished := by
    intro group
    unfold prepare
    split <;> exact fun he => nomatch he
  cases serial with
  | true =>
    refine all_finished fun x hx => ?_
    obtain ⟨group, hm, rfl⟩ := List.mem_map.mp hx
    exact bind_finished (hprepare group) (h group hm)
  | false =>
    refine bind_finished (all_finished fun x hx => ?_) fun all log hall =>
      all_finished fun x hx => ?_
    · obtain ⟨group, -, rfl⟩ := List.mem_map.mp hx
      exact hprepare group
    · obtain ⟨prepared, hp, rfl⟩ := List.mem_map.mp hx
      obtain ⟨y, hy, own, hdone⟩ := all_mem_done hall hp
      obtain ⟨group, hm, rfl⟩ := List.mem_map.mp hy
      exact h group hm prepared own hdone

theorem prepare_done {frame : ObjectFrame} {group : FieldGroup} {prepared : Site × Reply}
    {log : Log} (h : prepare env frame group = .done prepared log) :
    ∃ found type, lookup env frame group = .ok (found, type) ∧
      prepared = (site env frame group found type, (answer env frame group found type).1) := by
  unfold prepare at h
  split at h
  · cases h
  · next found type hl =>
    obtain ⟨rfl, -⟩ := Evaluation.done.inj h
    exact ⟨found, type, hl, rfl⟩

theorem routed_finished {site : Site} {value : FieldValue} {next : Content → Evaluation Completed}
    (h : ∀ content, site.route value = .content content → next content ≠ .unfinished) :
    routed site value next ≠ .unfinished := by
  unfold routed
  split
  · exact fun he => nomatch he
  · exact fun he => nomatch he
  · next content hr => exact h content hr

theorem complete_finished {type : TypeRef} {site : Site} {content : Content}
    (h : ∀ frame selections, Leads env site type content frame selections →
      fields frame selections ≠ .unfinished) :
    complete env fields type site content ≠ .unfinished := by
  induction type, site, content using Shaped.of_induction env with
  | plain type site content hn =>
    rw [Shaped.complete_evaluation]
    cases hs : Shaped.of env site content type with
    | null errors => exact fun he => nomatch he
    | leaf output => exact fun he => nomatch he
    | fault raised => exact fun he => nomatch he
    | list itemType items => exact absurd hs (hn itemType items)
    | object objectType value =>
      refine routed_finished fun inner hr => ?_
      cases inner with
      | items items => exact fun he => nomatch he
      | value exposed => exact map_finished (h _ _ (.object hs hr))
  | list type site content itemType items hs ih =>
    rw [Shaped.complete_evaluation, hs]
    refine map_finished (all_finished fun x hx => ?_)
    obtain ⟨element, he, rfl⟩ := List.mem_map.mp hx
    refine after_finished (routed_finished fun inner hr => ih element.1 inner ?_)
    exact fun frame selections hl => h frame selections (.item hs he hr hl)

theorem select_finished {depth : Nat} {frame : ObjectFrame} {selections : List Selection}
    (serial : Bool) (hs : ∀ selection ∈ selections, env.document.Shallow depth selection) :
    select env (depth + 1) frame selections serial ≠ .unfinished := by
  induction depth using Nat.strongRecOn generalizing frame selections serial with
  | ind depth ih =>
    rw [select]
    cases hg : Gathering.collect env.schema env.document env.context frame.type selections with
    | error raised => simp
    | ok groups =>
      refine map_finished (completeAll_finished serial fun group hm prepared own hp => ?_)
      obtain ⟨less, hlt, hsub⟩ := Gathering.shallow_collect hg hs group hm
      obtain ⟨found, type, -, rfl⟩ := prepare_done hp
      refine after_finished (after_finished (routed_finished fun content _ => ?_))
      refine complete_finished fun inner sub hl => ?_
      have hinner : select env (less + 1) inner sub false ≠ .unfinished := by
        refine ih less hlt false fun selection hsel => hsub selection ?_
        rwa [hl.selections_eq] at hsel
      exact (select_settles (.refl env) hlt inner sub false hinner).finished hinner

end Reference

/-- Selections that the reference completes halt. -/
theorem Halts.of_done {env : Environment} (depth : Nat) {frame : ObjectFrame}
    {selections : List Selection} {serial : Bool} {fields : List (String × Completed)} {log : Log}
    (h : Reference.select env depth frame selections serial = .done fields log) :
    ∃ steps, Halts env steps [.select frame selections serial] := by
  induction depth generalizing frame selections serial fields log with
  | zero => cases h
  | succ depth ih =>
    refine select serial fun groups hg group hm found type hlookup => ?_
    refine value fun content hr inner sub hl => ?_
    simp only [Reference.select, hg] at h
    obtain ⟨completed, hall, -⟩ := map_eq_done h
    obtain ⟨prepared, _, _, _, hp, hfield⟩ := completeAll_done hall hm
    obtain ⟨_, _, hfound, rfl⟩ := prepare_done hp
    obtain ⟨rfl, rfl⟩ := Prod.mk.inj (Except.ok.inj (hlookup.symm.trans hfound))
    obtain ⟨_, hsettled, -⟩ := after_eq_done hfield
    obtain ⟨_, _, hcontent⟩ := settled_done hsettled hr
    obtain ⟨_, _, hinner⟩ := complete_leads hl hcontent
    exact ih hinner

end GraphQL
