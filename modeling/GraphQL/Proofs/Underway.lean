import GraphQL.Proofs.Strands

/-!
# Work under way

Of the work that is left some is under way, and the rest waits for its turn. A deferred value that
has been asked for is under way: it keeps its siblings waiting and is not kept waiting by them.
-/

namespace GraphQL

/-- True of a deferred value that has asked for a permit and not settled. -/
def Work.isAwaited : Work → Bool
  | await _ _ _ _ _ => true
  | _ => false

namespace Task

open Strand

mutual

/-- The work under way is among the work that is left, in the same order. -/
theorem frontier_sublist : (task : Task) → (task.frontier.map Prod.snd).Sublist (works task.strands)
  | done => by simp [frontier]
  | fault raised => by simp [frontier]
  | work piece => by simp [frontier, strands]
  | serial tasks => by
    rw [frontier, strands]
    exact frontierOfFirst_sublist 0 tasks
  | together tasks => by
    rw [frontier, strands]
    exact frontierOfAll_sublist 0 tasks

theorem frontierOfFirst_sublist : (place : Nat) → (tasks : List Task) →
    ((frontierOfFirst place tasks).map Prod.snd).Sublist (works (strandsOfAll tasks))
  | _, [] => by simp [frontierOfFirst]
  | place, task :: rest => by
    by_cases hd : task = done
    · subst hd
      simpa [frontierOfFirst, strandsOfAll, strands] using frontierOfFirst_sublist (place + 1) rest
    · rw [frontierOfFirst_cons hd, List.map_map, strandsOfAll, works_append]
      exact (frontier_sublist task).trans (List.sublist_append_left _ _)

theorem frontierOfAll_sublist : (place : Nat) → (tasks : List Task) →
    ((frontierOfAll place tasks).map Prod.snd).Sublist (works (strandsOfAll tasks))
  | _, [] => by simp [frontierOfAll]
  | place, task :: rest => by
    rw [frontierOfAll, List.map_append, List.map_map, strandsOfAll, works_append]
    exact (frontier_sublist task).append (frontierOfAll_sublist (place + 1) rest)

end

/-- All values that are awaited among the work that is left are under way. -/
def Awaits (strands : List Strand) (entries : List (Address × Work)) : Prop :=
  (works strands).filter Work.isAwaited = (entries.map Prod.snd).filter Work.isAwaited

/-- All values that a task awaits are under way. -/
def Orderly (task : Task) : Prop := Awaits task.strands task.frontier

section Awaits

variable {strands others : List Strand} {entries rest : List (Address × Work)} {task : Task}

/-- Where no value is awaited, none is under way. -/
theorem awaits_of_idle (h : ∀ piece ∈ works strands, piece.isAwaited = false)
    (hs : (entries.map Prod.snd).Sublist (works strands)) : Awaits strands entries := by
  have hnone : (works strands).filter Work.isAwaited = [] :=
    List.filter_eq_nil_iff.mpr fun piece hm => by simp [h piece hm]
  have hsub := hs.filter Work.isAwaited
  rw [hnone] at hsub
  rw [Awaits, hnone, List.sublist_nil.mp hsub]

theorem awaits_append (hs : (entries.map Prod.snd).Sublist (works strands))
    (hr : (rest.map Prod.snd).Sublist (works others)) :
    Awaits (strands ++ others) (entries ++ rest) ↔ Awaits strands entries ∧ Awaits others rest := by
  constructor
  · intro h
    -- neither part has more values under way than awaited ones
    have hleft := hs.filter Work.isAwaited
    have hright := hr.filter Work.isAwaited
    have hsum := congrArg List.length h
    simp only [works_append, List.map_append, List.filter_append, List.length_append] at hsum
    have hl := hleft.length_le
    have hk := hright.length_le
    exact ⟨(hleft.eq_of_length (by omega)).symm, (hright.eq_of_length (by omega)).symm⟩
  · rintro ⟨h, k⟩
    simp only [Awaits, works_append, List.map_append, List.filter_append]
    rw [h, k]

theorem awaits_map (place : Nat) : Awaits strands
    (entries.map fun entry => (place :: entry.1, entry.2)) ↔ Awaits strands entries := by
  rw [Awaits, Awaits, List.map_map]
  rfl

theorem orderly_of_idle (h : ∀ piece ∈ works task.strands, piece.isAwaited = false) :
    task.Orderly := awaits_of_idle h (frontier_sublist task)

theorem orderly_work (piece : Work) : (work piece).Orderly := by
  simp [Orderly, Awaits, strands, frontier]

theorem awaits_all {tasks : List Task} {place : Nat} :
    Awaits (strandsOfAll tasks) (frontierOfAll place tasks) ↔ ∀ task ∈ tasks, task.Orderly := by
  induction tasks generalizing place with
  | nil => simp [strandsOfAll, frontierOfAll, Awaits]
  | cons task tasks ih =>
    have hmap : (((frontier task).map fun entry => (place :: entry.1, entry.2)).map Prod.snd).Sublist
        (works task.strands) := by
      rw [List.map_map]
      exact frontier_sublist task
    rw [strandsOfAll, frontierOfAll, awaits_append hmap (frontierOfAll_sublist _ tasks), awaits_map,
      ih, List.forall_mem_cons]
    rfl

/-- The siblings of a task that has not succeeded wait for it. -/
theorem awaits_first {tasks : List Task} {place : Nat} (hd : task ≠ done) :
    Awaits (strandsOfAll (task :: tasks)) (frontierOfFirst place (task :: tasks)) ↔
      task.Orderly ∧ ∀ piece ∈ works (strandsOfAll tasks), piece.isAwaited = false := by
  have hmap : (((frontier task).map fun entry => (place :: entry.1, entry.2)).map Prod.snd).Sublist
      (works task.strands) := by
    rw [List.map_map]
    exact frontier_sublist task
  have hrest : Awaits (strandsOfAll tasks) [] ↔
      ∀ piece ∈ works (strandsOfAll tasks), piece.isAwaited = false := by
    simp [Awaits, List.filter_eq_nil_iff]
  rw [strandsOfAll, frontierOfFirst_cons hd, ← List.append_nil (List.map _ (frontier task)),
    awaits_append hmap (by simp), awaits_map, hrest]
  rfl

end Awaits

theorem orderly_inOrder {tasks : List Task}
    (h : Awaits (strandsOfAll tasks) (frontierOfFirst 0 tasks)) : (inOrder tasks).Orderly := by
  rcases verdict_cases tasks with ⟨hv, _⟩ | ⟨raised, _, hv, _⟩ | hv
  · exact orderly_of_idle (by simp [inOrder, siblings, hv, strands])
  · exact orderly_of_idle (by simp [inOrder, siblings, hv, strands])
  · simpa [inOrder, siblings, hv, Orderly, strands, frontier] using h

theorem orderly_joined {tasks : List Task} (h : ∀ task ∈ tasks, task.Orderly) :
    (joined tasks).Orderly := by
  rcases verdict_cases tasks with ⟨hv, _⟩ | ⟨raised, _, hv, _⟩ | hv
  · exact orderly_of_idle (by simp [joined, siblings, hv, strands])
  · exact orderly_of_idle (by simp [joined, siblings, hv, strands])
  · simpa [joined, siblings, hv, Orderly, strands, frontier] using awaits_all.mpr h

/-- A step of work under way leaves no awaited value waiting for its turn. -/
theorem Orderly.replace {address : Address} {task next : Task} {piece : Work} (h : task.Orderly)
    (hm : (address, piece) ∈ frontier task) (hn : next.Orderly) :
    (task.replace address next).Orderly := by
  induction address generalizing task with
  | nil => simpa [Task.replace] using hn
  | cons place address ih =>
    cases task with
    | done => simp [frontier] at hm
    | fault raised => simp [frontier] at hm
    | work other => simp [frontier] at hm
    | together tasks =>
      obtain ⟨before, first, after, rest, rfl, he, hm⟩ := mem_frontier_siblings (.inr rfl) hm
      obtain ⟨rfl, rfl⟩ := List.cons.inj he
      have heach : ∀ task ∈ before ++ first :: after, task.Orderly := awaits_all.mp h
      simp only [Task.replace, modify_middle]
      refine orderly_joined fun task ht => ?_
      rcases List.mem_append.mp ht with ht | ht
      · exact heach task (List.mem_append_left _ ht)
      · rcases List.mem_cons.mp ht with rfl | ht
        · exact ih (heach first (by simp)) hm
        · exact heach task (List.mem_append_right _ (List.mem_cons_of_mem _ ht))
    | serial tasks =>
      rw [frontier] at hm
      obtain ⟨before, first, after, rest, rfl, hb, he, hm⟩ := mem_frontierOfFirst hm
      rw [Nat.zero_add] at he
      obtain ⟨rfl, rfl⟩ := List.cons.inj he
      have hskip : ∀ task : Task, Awaits (strandsOfAll (before ++ task :: after))
          (frontierOfFirst 0 (before ++ task :: after)) ↔
            Awaits (strandsOfAll (task :: after)) (frontierOfFirst before.length (task :: after)) := by
        intro task
        rw [strandsOfAll_append, strandsOfAll_of_done hb, frontierOfFirst_append hb, Nat.zero_add,
          List.nil_append]
      have hne : first ≠ done := fun hd => by simp [hd, frontier] at hm
      have hserial : Awaits (strandsOfAll (before ++ first :: after))
          (frontierOfFirst 0 (before ++ first :: after)) := by
        simpa [Orderly, strands, frontier] using h
      obtain ⟨hfirst, hidle⟩ := (awaits_first hne).mp ((hskip first).mp hserial)
      simp only [Task.replace, modify_middle]
      refine orderly_inOrder ((hskip _).mpr ?_)
      by_cases hd : first.replace address next = done
      · -- it is the turn of the next sibling, which awaits nothing yet
        rw [hd]
        exact awaits_of_idle (by simpa [strandsOfAll, strands] using hidle)
          (frontierOfFirst_sublist _ _)
      · exact (awaits_first hd).mpr ⟨ih hfirst hm, hidle⟩

end Task

end GraphQL
