import GraphQL.Execution.Executor
import Mathlib.Data.List.Basic

/-!
# Strands

A task tree read as the list of its ends: the pieces of work that are left and the faults that
pieces of work have ended in, from left to right. A step puts the strands of its outcome in place of
the piece of work that took it. Siblings that have an outcome collapse, which may drop strands
behind a fault and never changes what comes before the first fault.
-/

namespace GraphQL

/-- A piece of work, or the fault that it has ended in. -/
abbrev Strand := Except Fault Work

namespace Task

mutual

/-- The strands of a task from left to right. -/
def strands : Task → List Strand
  | done => []
  | fault raised => [.error raised]
  | work piece => [.ok piece]
  | serial tasks => strandsOfAll tasks
  | together tasks => strandsOfAll tasks

def strandsOfAll : List Task → List Strand
  | [] => []
  | task :: rest => strands task ++ strandsOfAll rest

end

theorem strandsOfAll_append (xs ys : List Task) :
    strandsOfAll (xs ++ ys) = strandsOfAll xs ++ strandsOfAll ys := by
  induction xs with
  | nil => rfl
  | cons x xs ih => simp [strandsOfAll, ih]

theorem strandsOfAll_map_work (pieces : List Work) :
    strandsOfAll (pieces.map work) = pieces.map .ok := by
  induction pieces with
  | nil => rfl
  | cons piece rest ih => simp [strandsOfAll, strands, ih]

end Task

namespace Strand

/-- The strands up to the first fault. -/
def untilFault : List Strand → List Strand
  | [] => []
  | .error raised :: _ => [.error raised]
  | .ok piece :: rest => .ok piece :: untilFault rest

def works (strands : List Strand) : List Work := strands.filterMap Except.toOption

/-- True of strands without a fault. -/
def Sound (strands : List Strand) : Prop := ∀ raised, .error raised ∉ strands

@[simp] theorem works_nil : works [] = [] := rfl
@[simp] theorem works_ok (piece : Work) (rest : List Strand) :
    works (.ok piece :: rest) = piece :: works rest := rfl
@[simp] theorem works_error (raised : Fault) (rest : List Strand) :
    works (.error raised :: rest) = works rest := rfl
@[simp] theorem works_append (xs ys : List Strand) : works (xs ++ ys) = works xs ++ works ys := by
  simp [works]
@[simp] theorem works_map_ok (pieces : List Work) : works (pieces.map .ok) = pieces := by
  induction pieces with
  | nil => rfl
  | cons piece rest ih => simp [ih]

theorem sound_append {xs ys : List Strand} : Sound (xs ++ ys) ↔ Sound xs ∧ Sound ys := by
  simp [Sound, forall_and]

/-- Work in place of strands without a fault is none either. -/
theorem Sound.work {left middle right : List Strand} (h : Sound (left ++ middle ++ right))
    (piece : Work) : Sound (left ++ .ok piece :: right) := by
  obtain ⟨hleft, hright⟩ := sound_append.mp h
  refine sound_append.mpr ⟨(sound_append.mp hleft).1, fun raised hm => ?_⟩
  rcases List.mem_cons.mp hm with he | hm
  · cases he
  · exact hright raised hm

theorem sound_map_ok (pieces : List Work) : Sound (pieces.map .ok) := by simp [Sound]

theorem Sound.sublist {xs ys : List Strand} (h : Sound ys) (hs : xs.Sublist ys) : Sound xs :=
  fun raised hm => h raised (hs.mem hm)

theorem Sound.untilFault_eq {xs : List Strand} (h : Sound xs) : untilFault xs = xs := by
  induction xs with
  | nil => rfl
  | cons x xs ih =>
    cases x with
    | error raised => exact absurd List.mem_cons_self (h raised)
    | ok piece =>
      have hx : Sound xs := fun raised hm => h raised (List.mem_cons_of_mem _ hm)
      simp [untilFault, ih hx]

theorem sound_of_untilFault {xs : List Strand} (h : Sound (untilFault xs)) : Sound xs := by
  induction xs with
  | nil => exact h
  | cons x xs ih =>
    cases x with
    | error raised => exact absurd List.mem_cons_self (h raised)
    | ok piece =>
      have hx := ih fun raised hm => h raised (List.mem_cons_of_mem _ hm)
      intro raised hm
      rcases List.mem_cons.mp hm with he | hm
      · cases he
      · exact hx raised hm

theorem untilFault_append (xs ys : List Strand) :
    untilFault (xs ++ ys) = untilFault (untilFault xs ++ untilFault ys) := by
  induction xs with
  | nil =>
    induction ys with
    | nil => rfl
    | cons y ys ih =>
      cases y with
      | error raised => rfl
      | ok piece => simpa [untilFault] using ih
  | cons x xs ih =>
    cases x with
    | error raised => rfl
    | ok piece => simp [untilFault, ih]

/-- `Trims full part`: `part` is what is left of `full` after strands behind a fault were
dropped. -/
structure Trims (full part : List Strand) : Prop where
  sublist : part.Sublist full
  untilFault : untilFault part = untilFault full

theorem Trims.refl (xs : List Strand) : Trims xs xs := ⟨.refl _, rfl⟩

theorem Trims.trans {xs ys zs : List Strand} (h : Trims xs ys) (k : Trims ys zs) : Trims xs zs :=
  ⟨k.sublist.trans h.sublist, k.untilFault.trans h.untilFault⟩

theorem Trims.append {xs ys xs' ys' : List Strand} (h : Trims xs xs') (k : Trims ys ys') :
    Trims (xs ++ ys) (xs' ++ ys') := by
  refine ⟨h.sublist.append k.sublist, ?_⟩
  rw [untilFault_append, untilFault_append xs ys, h.untilFault, k.untilFault]

/-- Nothing is dropped where there is no fault. -/
theorem Trims.eq_of_sound {full part : List Strand} (h : Trims full part) (hs : Sound part) :
    part = full := by
  have hf : Sound full := by
    apply sound_of_untilFault
    rw [← h.untilFault, hs.untilFault_eq]
    exact hs
  rw [← hs.untilFault_eq, h.untilFault, hf.untilFault_eq]

theorem Trims.works_sublist {full part : List Strand} (h : Trims full part) :
    (works part).Sublist (works full) := h.sublist.filterMap _

/-- What holds of all work still does where a piece has been replaced. -/
theorem Trims.forall_works {P : Work → Prop} {left middle right part : List Strand} {piece : Work}
    (h : Trims (left ++ middle ++ right) part)
    (hall : ∀ other ∈ works (left ++ .ok piece :: right), P other)
    (hm : ∀ other ∈ works middle, P other) : ∀ other ∈ works part, P other := by
  intro other ho
  have hmem := h.works_sublist.mem ho
  simp only [works_append, works_ok, List.mem_append, List.mem_cons] at hmem hall
  rcases hmem with (hmem | hmem) | hmem
  · exact hall other (.inl hmem)
  · exact hm other hmem
  · exact hall other (.inr (.inr hmem))

end Strand

namespace Task

open Strand

/-- What the verdict on siblings says about their strands. -/
theorem verdict_cases (tasks : List Task) :
    (verdict tasks = some (.ok ()) ∧ strandsOfAll tasks = []) ∨
    (∃ raised rest, verdict tasks = some (.error raised) ∧
      strandsOfAll tasks = .error raised :: rest) ∨
    verdict tasks = none := by
  induction tasks with
  | nil => exact .inl ⟨rfl, rfl⟩
  | cons task rest ih =>
    cases task with
    | done =>
      rcases ih with ⟨hv, hs⟩ | ⟨raised, tail, hv, hs⟩ | hv
      · exact .inl ⟨by simpa [verdict, outcome?] using hv,
          by simpa [strandsOfAll, strands] using hs⟩
      · exact .inr (.inl ⟨raised, tail, by simpa [verdict, outcome?] using hv,
          by simpa [strandsOfAll, strands] using hs⟩)
      · exact .inr (.inr (by simpa [verdict, outcome?] using hv))
    | fault raised => exact .inr (.inl ⟨raised, strandsOfAll rest, rfl, rfl⟩)
    | work piece => exact .inr (.inr rfl)
    | serial tasks => exact .inr (.inr rfl)
    | together tasks => exact .inr (.inr rfl)

/-- Siblings collapse only behind a fault. -/
theorem trims_siblings (unfinished : List Task → Task) (tasks : List Task)
    (h : (unfinished tasks).strands = strandsOfAll tasks) :
    Trims (strandsOfAll tasks) (siblings unfinished tasks).strands := by
  rcases verdict_cases tasks with ⟨hv, hs⟩ | ⟨raised, rest, hv, hs⟩ | hv
  · simp only [siblings, hv, hs]
    exact .refl _
  · simp only [siblings, hv, hs]
    exact ⟨by simp [strands], rfl⟩
  · simp only [siblings, hv, h]
    exact .refl _

theorem trims_inOrder (tasks : List Task) : Trims (strandsOfAll tasks) (inOrder tasks).strands :=
  trims_siblings serial tasks rfl

theorem trims_joined (tasks : List Task) : Trims (strandsOfAll tasks) (joined tasks).strands :=
  trims_siblings together tasks rfl

theorem trims_dispatch (limit depth : Nat) (tasks : List Task) :
    Trims (strandsOfAll tasks) (dispatch limit depth tasks).strands := by
  unfold dispatch
  split
  · exact trims_joined tasks
  · exact trims_inOrder tasks

theorem strands_dispatch_work (limit depth : Nat) (pieces : List Work) :
    (dispatch limit depth (pieces.map work)).strands = pieces.map .ok := by
  have h := trims_dispatch limit depth (pieces.map work)
  rw [strandsOfAll_map_work] at h
  exact h.eq_of_sound ((sound_map_ok pieces).sublist h.sublist)

theorem strands_inOrder_work (pieces : List Work) :
    (inOrder (pieces.map work)).strands = pieces.map .ok := by
  have h := trims_inOrder (pieces.map work)
  rw [strandsOfAll_map_work] at h
  exact h.eq_of_sound ((sound_map_ok pieces).sublist h.sublist)

/-- Siblings behind one that has not succeeded have to wait. -/
theorem frontierOfFirst_cons {task : Task} (hd : task ≠ done) (place : Nat) (rest : List Task) :
    frontierOfFirst place (task :: rest) =
      (frontier task).map fun entry => (place :: entry.1, entry.2) := by
  rw [frontierOfFirst]
  exact hd

/-- Siblings that have succeeded are passed over. -/
theorem frontierOfFirst_append {before : List Task} (hb : ∀ task ∈ before, task = done)
    (place : Nat) (tasks : List Task) :
    frontierOfFirst place (before ++ tasks) = frontierOfFirst (place + before.length) tasks := by
  induction before generalizing place with
  | nil => rfl
  | cons task before ih =>
    obtain rfl := hb task List.mem_cons_self
    rw [List.cons_append, frontierOfFirst, ih fun task ht => hb task (List.mem_cons_of_mem _ ht),
      List.length_cons, Nat.add_right_comm, Nat.add_assoc]

theorem strandsOfAll_of_done {tasks : List Task} (h : ∀ task ∈ tasks, task = done) :
    strandsOfAll tasks = [] := by
  induction tasks with
  | nil => rfl
  | cons task tasks ih =>
    obtain rfl := h task List.mem_cons_self
    simpa [strandsOfAll, strands] using ih fun task ht => h task (List.mem_cons_of_mem _ ht)

theorem mem_frontierOfFirst {place : Nat} {tasks : List Task} {address : Address} {piece : Work}
    (h : (address, piece) ∈ frontierOfFirst place tasks) :
    ∃ before task after rest, tasks = before ++ task :: after ∧ (∀ task ∈ before, task = done) ∧
      address = (place + before.length) :: rest ∧ (rest, piece) ∈ frontier task := by
  induction tasks generalizing place with
  | nil => simp [frontierOfFirst] at h
  | cons task tasks ih =>
    by_cases hd : task = done
    · subst hd
      obtain ⟨before, first, after, rest, rfl, hb, rfl, hm⟩ :=
        ih (by simpa [frontierOfFirst] using h)
      exact ⟨done :: before, first, after, rest, rfl, by simpa using hb, by simp; omega, hm⟩
    · rw [frontierOfFirst_cons hd] at h
      obtain ⟨⟨rest, other⟩, hm, he⟩ := List.mem_map.mp h
      obtain ⟨rfl, rfl⟩ := Prod.mk.inj he
      exact ⟨[], task, tasks, rest, rfl, by simp, rfl, hm⟩

theorem mem_frontierOfAll {place : Nat} {tasks : List Task} {address : Address} {piece : Work}
    (h : (address, piece) ∈ frontierOfAll place tasks) :
    ∃ before task after rest, tasks = before ++ task :: after ∧
      address = (place + before.length) :: rest ∧ (rest, piece) ∈ frontier task := by
  induction tasks generalizing place with
  | nil => simp [frontierOfAll] at h
  | cons task tasks ih =>
    rw [frontierOfAll] at h
    rcases List.mem_append.mp h with h | h
    · obtain ⟨⟨rest, other⟩, hm, he⟩ := List.mem_map.mp h
      obtain ⟨rfl, rfl⟩ := Prod.mk.inj he
      exact ⟨[], task, tasks, rest, rfl, rfl, hm⟩
    · obtain ⟨before, first, after, rest, rfl, rfl, hm⟩ := ih h
      exact ⟨task :: before, first, after, rest, rfl, by simp; omega, hm⟩

/-- An address below siblings leads into one of them. -/
theorem mem_frontier_siblings {tasks : List Task} {task : Task}
    (ht : task = serial tasks ∨ task = together tasks) {address : Address} {piece : Work}
    (h : (address, piece) ∈ frontier task) :
    ∃ before first after rest, tasks = before ++ first :: after ∧
      address = before.length :: rest ∧ (rest, piece) ∈ frontier first := by
  rcases ht with rfl | rfl
  · have hm : (address, piece) ∈ frontierOfFirst 0 tasks := by simpa [frontier] using h
    obtain ⟨before, first, after, rest, hs, -, ha, hfirst⟩ := mem_frontierOfFirst hm
    exact ⟨before, first, after, rest, hs, by simpa only [Nat.zero_add] using ha, hfirst⟩
  · have hm : (address, piece) ∈ frontierOfAll 0 tasks := by simpa [frontier] using h
    simpa only [Nat.zero_add] using mem_frontierOfAll hm

theorem modify_middle (before after : List Task) (task : Task) (change : Task → Task) :
    (before ++ task :: after).modify before.length change = before ++ change task :: after := by
  induction before with
  | nil => rfl
  | cons task before ih => simp [ih]

theorem trims_middle {before after : List Task} {left right middle part : List Strand} {next : Task}
    (hm : Trims (left ++ middle ++ right) part) (hn : next.strands = part) :
    Trims ((strandsOfAll before ++ left) ++ middle ++ (right ++ strandsOfAll after))
      (strandsOfAll (before ++ next :: after)) := by
  have h := ((Trims.refl (strandsOfAll before)).append hm).append (.refl (strandsOfAll after))
  simpa [strandsOfAll_append, strandsOfAll, hn] using h

/-- A step replaces one strand by those of its outcome; strands behind a fault may be dropped. -/
theorem strands_replace {address : Address} {task : Task} {piece : Work}
    (h : (address, piece) ∈ frontier task) :
    ∃ left right, task.strands = left ++ .ok piece :: right ∧
      ∀ next, Trims (left ++ next.strands ++ right) (replace address task next).strands := by
  induction address generalizing task with
  | nil =>
    cases task with
    | done => simp [frontier] at h
    | fault raised => simp [frontier] at h
    | work other =>
      obtain rfl : piece = other := by simpa [frontier] using h
      exact ⟨[], [], rfl, fun next => by simpa [replace] using Trims.refl _⟩
    | serial tasks =>
      obtain ⟨_, _, _, _, _, he, _⟩ := mem_frontier_siblings (.inl rfl) h
      cases he
    | together tasks =>
      obtain ⟨_, _, _, _, _, he, _⟩ := mem_frontier_siblings (.inr rfl) h
      cases he
  | cons place address ih =>
    cases task with
    | done => simp [frontier] at h
    | fault raised => simp [frontier] at h
    | work other => simp [frontier] at h
    | serial tasks =>
      obtain ⟨before, first, after, rest, rfl, he, hm⟩ := mem_frontier_siblings (.inl rfl) h
      obtain ⟨rfl, rfl⟩ := List.cons.inj he
      obtain ⟨left, right, hs, ht⟩ := ih hm
      refine ⟨strandsOfAll before ++ left, right ++ strandsOfAll after, ?_, fun next => ?_⟩
      · simp [strands, strandsOfAll_append, strandsOfAll, hs]
      · simp only [replace, modify_middle]
        exact (trims_middle (ht next) rfl).trans (trims_inOrder _)
    | together tasks =>
      obtain ⟨before, first, after, rest, rfl, he, hm⟩ := mem_frontier_siblings (.inr rfl) h
      obtain ⟨rfl, rfl⟩ := List.cons.inj he
      obtain ⟨left, right, hs, ht⟩ := ih hm
      refine ⟨strandsOfAll before ++ left, right ++ strandsOfAll after, ?_, fun next => ?_⟩
      · simp [strands, strandsOfAll_append, strandsOfAll, hs]
      · simp only [replace, modify_middle]
        exact (trims_middle (ht next) rfl).trans (trims_joined _)

/-- An address leads to one piece of work. -/
theorem frontier_unique {address : Address} {task : Task} {one other : Work}
    (h : (address, one) ∈ frontier task) (k : (address, other) ∈ frontier task) : one = other := by
  induction address generalizing task with
  | nil =>
    cases task with
    | done => simp [frontier] at h
    | fault raised => simp [frontier] at h
    | work piece =>
      obtain rfl : one = piece := by simpa [frontier] using h
      obtain rfl : other = one := by simpa [frontier] using k
      rfl
    | serial tasks =>
      obtain ⟨_, _, _, _, _, he, _⟩ := mem_frontier_siblings (.inl rfl) h
      cases he
    | together tasks =>
      obtain ⟨_, _, _, _, _, he, _⟩ := mem_frontier_siblings (.inr rfl) h
      cases he
  | cons place address ih =>
    have hs : ∃ tasks, task = serial tasks ∨ task = together tasks := by
      cases task <;> simp_all [frontier]
    obtain ⟨tasks, ht⟩ := hs
    obtain ⟨before, first, after, rest, rfl, he, hm⟩ := mem_frontier_siblings ht h
    obtain ⟨before', first', after', rest', hb, he', hm'⟩ := mem_frontier_siblings ht k
    obtain ⟨rfl, rfl⟩ := List.cons.inj he
    obtain ⟨hl, rfl⟩ := List.cons.inj he'
    obtain ⟨-, hc⟩ := List.append_inj hb hl
    obtain ⟨rfl, -⟩ := List.cons.inj hc
    exact ih hm hm'

theorem work?_eq_some {address : Address} {task : Task} {piece : Work} :
    task.work? address = some piece ↔ (address, piece) ∈ task.frontier := by
  constructor
  · intro h
    obtain ⟨⟨found, other⟩, hf, rfl⟩ := Option.map_eq_some_iff.mp h
    obtain rfl : found = address := by simpa using List.find?_some hf
    exact List.mem_of_find?_eq_some hf
  · intro h
    have hs : (task.frontier.find? fun entry => entry.1 = address).isSome := by
      simpa using ⟨piece, h⟩
    obtain ⟨⟨found, other⟩, hf⟩ := Option.isSome_iff_exists.mp hs
    obtain rfl : found = address := by simpa using List.find?_some hf
    rw [work?, hf, Option.map_some, frontier_unique (List.mem_of_find?_eq_some hf) h]

/-- True of tasks in which all siblings that have an outcome have collapsed. -/
inductive Normal : Task → Prop where
  | done : Normal done
  | fault (raised : Fault) : Normal (fault raised)
  | work (piece : Work) : Normal (work piece)
  | serial {tasks : List Task} (hv : verdict tasks = none) (each : ∀ task ∈ tasks, Normal task) :
      Normal (serial tasks)
  | together {tasks : List Task} (hv : verdict tasks = none)
      (each : ∀ task ∈ tasks, Normal task) : Normal (together tasks)

theorem normal_inOrder {tasks : List Task} (h : ∀ task ∈ tasks, Normal task) :
    Normal (inOrder tasks) := by
  rcases verdict_cases tasks with ⟨hv, _⟩ | ⟨raised, _, hv, _⟩ | hv
  · simpa only [inOrder, siblings, hv] using Normal.done
  · simpa only [inOrder, siblings, hv] using Normal.fault raised
  · simpa only [inOrder, siblings, hv] using Normal.serial hv h

theorem normal_joined {tasks : List Task} (h : ∀ task ∈ tasks, Normal task) :
    Normal (joined tasks) := by
  rcases verdict_cases tasks with ⟨hv, _⟩ | ⟨raised, _, hv, _⟩ | hv
  · simpa only [joined, siblings, hv] using Normal.done
  · simpa only [joined, siblings, hv] using Normal.fault raised
  · simpa only [joined, siblings, hv] using Normal.together hv h

theorem normal_dispatch {limit depth : Nat} {tasks : List Task} (h : ∀ task ∈ tasks, Normal task) :
    Normal (dispatch limit depth tasks) := by
  unfold dispatch
  split
  · exact normal_joined h
  · exact normal_inOrder h

theorem Normal.replace {task next : Task} (h : Normal task) (hn : Normal next)
    (address : Address) : Normal (task.replace address next) := by
  induction address generalizing task with
  | nil => simpa [Task.replace] using hn
  | cons place address ih =>
    have hm : ∀ tasks : List Task, (∀ task ∈ tasks, Normal task) →
        ∀ task ∈ tasks.modify place fun task => task.replace address next, Normal task := by
      intro tasks each task ht
      obtain ⟨i, hi, rfl⟩ := List.mem_iff_getElem.mp ht
      rw [List.getElem_modify]
      split
      · exact ih (each _ (List.getElem_mem _))
      · exact each _ (List.getElem_mem _)
    cases h with
    | done => simpa [Task.replace] using Normal.done
    | fault raised => simpa [Task.replace] using Normal.fault raised
    | work piece => simpa [Task.replace] using Normal.work piece
    | serial _ each => simpa [Task.replace] using normal_inOrder (hm _ each)
    | together _ each => simpa [Task.replace] using normal_joined (hm _ each)

theorem frontierOfFirst_ne_nil {tasks : List Task} (hv : verdict tasks = none)
    (h : ∀ task ∈ tasks, task.outcome? = none → frontier task ≠ []) (place : Nat) :
    frontierOfFirst place tasks ≠ [] := by
  induction tasks generalizing place with
  | nil => simp [verdict] at hv
  | cons task rest ih =>
    by_cases hd : task = done
    · subst hd
      rw [frontierOfFirst]
      exact ih (by simpa [verdict, outcome?] using hv)
        (fun task ht => h task (List.mem_cons_of_mem _ ht)) _
    · have ho : task.outcome? = none := by cases task <;> simp_all [verdict, outcome?]
      rw [frontierOfFirst_cons hd]
      simpa using h task List.mem_cons_self ho

theorem frontierOfAll_ne_nil {tasks : List Task} (hv : verdict tasks = none)
    (h : ∀ task ∈ tasks, task.outcome? = none → frontier task ≠ []) (place : Nat) :
    frontierOfAll place tasks ≠ [] := by
  induction tasks generalizing place with
  | nil => simp [verdict] at hv
  | cons task rest ih =>
    rw [frontierOfAll]
    cases ho : task.outcome? with
    | none =>
      have hf := h task List.mem_cons_self ho
      simp [hf]
    | some outcome =>
      have hr : verdict rest = none := by
        cases outcome <;> simp_all [verdict]
      have hf := ih hr (fun task ht => h task (List.mem_cons_of_mem _ ht)) (place + 1)
      simp [hf]

/-- A task without an outcome has work under way. -/
theorem Normal.frontier_ne_nil {task : Task} (h : Normal task) (ho : task.outcome? = none) :
    frontier task ≠ [] := by
  induction h with
  | done => simp [outcome?] at ho
  | fault raised => simp [outcome?] at ho
  | work piece => simp [frontier]
  | serial hv _ ih =>
    rw [frontier]
    exact frontierOfFirst_ne_nil hv ih 0
  | together hv _ ih =>
    rw [frontier]
    exact frontierOfAll_ne_nil hv ih 0

end Task

end GraphQL
