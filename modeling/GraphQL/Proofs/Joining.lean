import GraphQL.Execution.Joining
import Mathlib.Data.List.Basic

/-!
# Orders of arrival

In whatever order the outcomes of siblings come in, the siblings have an outcome as soon as it
cannot change any more, and it is the one that they have when they are done one after another. This
is what `Task.verdict` says of them at every moment.
-/

namespace GraphQL

/-- The outcome of siblings of which these outcomes are known. -/
def firstFault? : List (Option Outcome) → Option Outcome
  | [] => some (.ok ())
  | some (.ok ()) :: rest => firstFault? rest
  | some (.error raised) :: _ => some (.error raised)
  | none :: _ => none

section Known

variable {known : List (Option Outcome)} {outcome : Outcome} {raised : Fault}

theorem Task.verdict_eq_firstFault? (tasks : List Task) :
    verdict tasks = firstFault? (tasks.map outcome?) := by
  induction tasks with
  | nil => rfl
  | cons task rest ih =>
    rw [verdict, List.map_cons]
    cases task.outcome? with
    | none => rfl
    | some outcome =>
      cases outcome with
      | ok _ => exact ih
      | error raised => rfl

/-- Siblings that have succeeded have no say. -/
theorem firstFault?_replicate (count : Nat) (rest : List (Option Outcome)) :
    firstFault? (List.replicate count (some (.ok ())) ++ rest) = firstFault? rest := by
  induction count with
  | zero => rfl
  | succ count ih => exact ih

theorem firstFault?_eq_ok :
    firstFault? known = some (.ok ()) ↔
      ∀ place < known.length, known[place]? = some (some (.ok ())) := by
  constructor
  · intro h place hp
    induction known generalizing place with
    | nil => cases hp
    | cons first rest ih =>
      match first with
      | some (.ok ()) =>
        cases place with
        | zero => rfl
        | succ place => exact ih h place (Nat.lt_of_succ_lt_succ hp)
      | some (.error raised) => cases h
      | none => cases h
  · intro h
    induction known with
    | nil => rfl
    | cons first rest ih =>
      obtain rfl : first = some (.ok ()) := Option.some.inj (h 0 (Nat.succ_pos _))
      exact ih fun place hp => h (place + 1) (Nat.succ_lt_succ hp)

theorem firstFault?_eq_error :
    firstFault? known = some (.error raised) ↔
      ∃ place : Nat, known[place]? = some (some (.error raised)) ∧
        ∀ before < place, known[before]? = some (some (.ok ())) := by
  constructor
  · intro h
    induction known with
    | nil => cases h
    | cons first rest ih =>
      match first with
      | some (.ok ()) =>
        obtain ⟨place, hp, hb⟩ := ih h
        refine ⟨place + 1, hp, fun before hlt => ?_⟩
        cases before with
        | zero => rfl
        | succ before => exact hb before (Nat.lt_of_succ_lt_succ hlt)
      | some (.error other) =>
        obtain rfl := Except.error.inj (Option.some.inj h)
        exact ⟨0, rfl, fun _ hlt => absurd hlt (Nat.not_lt_zero _)⟩
      | none => cases h
  · rintro ⟨place, hp, hb⟩
    induction known generalizing place with
    | nil => cases hp
    | cons first rest ih =>
      cases place with
      | zero =>
        obtain rfl : first = some (.error raised) := Option.some.inj hp
        rfl
      | succ place =>
        obtain rfl : first = some (.ok ()) := Option.some.inj (hb 0 (Nat.succ_pos _))
        exact ih place hp fun before hlt => hb (before + 1) (Nat.succ_lt_succ hlt)

/-- Siblings have no outcome only as long as one is missing. -/
theorem none_mem_of_firstFault? (h : firstFault? known = none) : none ∈ known := by
  induction known with
  | nil => cases h
  | cons first rest ih =>
    match first with
    | some (.ok ()) => exact List.mem_cons_of_mem _ (ih h)
    | some (.error raised) => cases h
    | none => exact List.mem_cons_self

/-- What siblings have come to is not changed by outcomes that were missing. -/
theorem firstFault?_set {place : Nat} (h : firstFault? known = some outcome)
    (hm : known[place]? = some none) (late : Outcome) :
    firstFault? (known.set place (some late)) = some outcome := by
  induction known generalizing place with
  | nil => cases hm
  | cons first rest ih =>
    match first with
    | some (.ok ()) =>
      cases place with
      | zero => cases hm
      | succ place => exact ih h hm
    | some (.error raised) =>
      cases place with
      | zero => cases hm
      | succ place => exact h
    | none => cases h

/-- What is known after arrivals. -/
def learn (known : List (Option Outcome)) (arrivals : List (Outcome × Nat)) :
    List (Option Outcome) :=
  arrivals.foldl (fun known arrival => known.set arrival.2 (some arrival.1)) known

@[simp] theorem length_learn (known : List (Option Outcome)) (arrivals : List (Outcome × Nat)) :
    (learn known arrivals).length = known.length := by
  induction arrivals generalizing known with
  | nil => rfl
  | cons arrival rest ih => exact (ih _).trans List.length_set

/-- Arrivals from siblings of which nothing is known yet, one from each. -/
structure Awaits (known : List (Option Outcome)) (arrivals : List (Outcome × Nat)) : Prop where
  missing : ∀ arrival ∈ arrivals, known[arrival.2]? = some none
  nodup : (arrivals.map Prod.snd).Nodup

theorem Awaits.tail {arrival : Outcome × Nat} {rest : List (Outcome × Nat)}
    (h : Awaits known (arrival :: rest)) :
    Awaits (known.set arrival.2 (some arrival.1)) rest := by
  obtain ⟨hfresh, hrest⟩ := List.nodup_cons.mp h.nodup
  refine ⟨fun other ho => ?_, hrest⟩
  have hne : arrival.2 ≠ other.2 := fun he => hfresh (he ▸ List.mem_map_of_mem ho)
  rw [List.getElem?_set_ne hne]
  exact h.missing other (List.mem_cons_of_mem _ ho)

theorem Awaits.firstFault?_learn {arrivals : List (Outcome × Nat)} (h : Awaits known arrivals)
    (hk : firstFault? known = some outcome) :
    firstFault? (learn known arrivals) = some outcome := by
  induction arrivals generalizing known with
  | nil => exact hk
  | cons arrival rest ih =>
    exact ih h.tail (firstFault?_set hk (h.missing arrival List.mem_cons_self) arrival.1)

theorem Awaits.getElem?_learn {arrivals : List (Outcome × Nat)} (h : Awaits known arrivals)
    (place : Nat) (outcome : Outcome) :
    (learn known arrivals)[place]? = some (some outcome) ↔
      (outcome, place) ∈ arrivals ∨ known[place]? = some (some outcome) := by
  induction arrivals generalizing known with
  | nil => simp [learn]
  | cons arrival rest ih =>
    have hmissing := h.missing arrival List.mem_cons_self
    have hlength := (List.getElem?_eq_some_iff.mp hmissing).1
    refine (ih h.tail).trans ?_
    obtain ⟨own, origin⟩ := arrival
    by_cases he : origin = place
    · subst he
      dsimp only at hmissing hlength
      simp [List.getElem?_set_self hlength, hmissing, eq_comm, or_comm]
    · simp [List.getElem?_set_ne he, Ne.symm he]

end Known

namespace Intake

variable {intake : Intake} {known : List (Option Outcome)} {arrivals : List (Outcome × Nat)}

/-- The outcomes before the cursor were successes and have been taken; those from it on are held. -/
def Holds (intake : Intake) (known : List (Option Outcome)) : Prop :=
  ∃ rest, intake.held = List.replicate intake.next none ++ rest ∧
    known = List.replicate intake.next (some (.ok ())) ++ rest

theorem Holds.receive (h : intake.Holds known) {arrival : Outcome × Nat}
    (hm : known[arrival.2]? = some none) :
    (intake.receive arrival).Holds (known.set arrival.2 (some arrival.1)) := by
  obtain ⟨rest, hheld, rfl⟩ := h
  have hplace : intake.next ≤ arrival.2 := by
    by_contra hlt
    rw [List.getElem?_append_left (by simpa using hlt)] at hm
    simp [List.getElem?_replicate] at hm
  refine ⟨rest.set (arrival.2 - intake.next) (some arrival.1), ?_, ?_⟩
  · simp [Intake.receive, hheld, List.set_append, Nat.not_lt.mpr hplace]
  · simp [Intake.receive, List.set_append, Nat.not_lt.mpr hplace]

/-- The cursor passes a success. -/
theorem held_advance {rest : List (Option Outcome)}
    (hheld : intake.held = List.replicate intake.next none ++ some (.ok ()) :: rest) :
    intake.advance.held = List.replicate intake.advance.next none ++ rest := by
  simp [Intake.advance, hheld, List.replicate_succ']

/-- The cursor has come as far as the outcomes that are known allow. -/
structure Waits (intake : Intake) (known : List (Option Outcome)) : Prop where
  holds : intake.Holds known
  running : intake.running = known.countP Option.isNone
  stands : firstFault? known =
    if intake.next < intake.held.length then none else some (.ok ())

theorem waits_start (count : Nat) : (start count).Waits (List.replicate count none) := by
  refine ⟨⟨List.replicate count none, rfl, rfl⟩, ?_, ?_⟩
  · simp [start, List.countP_replicate]
  · cases count <;> rfl

/-- Draining ends at a fault, if all siblings before it have succeeded, and otherwise where an
outcome is missing. -/
theorem Holds.drain (h : intake.Holds known)
    (hr : intake.running = known.countP Option.isNone) :
    (∃ raised, intake.drain = .error raised ∧ firstFault? known = some (.error raised)) ∨
      ∃ later, intake.drain = .ok later ∧ later.Waits known := by
  obtain ⟨rest, hheld, rfl⟩ := h
  induction rest generalizing intake with
  | nil =>
    have hnone : intake.held[intake.next]? = none := by simp [hheld]
    refine .inr ⟨intake, ?_, ⟨[], hheld, rfl⟩, hr, ?_⟩
    · rw [Intake.drain]
      split <;> simp_all
    · rw [firstFault?_replicate, hheld, if_neg (by simp)]
      rfl
  | cons first rest ih =>
    have hfirst : intake.held[intake.next]? = some first := by simp [hheld]
    cases first with
    | none =>
      refine .inr ⟨intake, ?_, ⟨_, hheld, rfl⟩, hr, ?_⟩
      · rw [Intake.drain]
        split <;> simp_all
      · rw [firstFault?_replicate, hheld, if_pos (by simp)]
        rfl
    | some outcome =>
      cases outcome with
      | error raised =>
        refine .inl ⟨raised, ?_, ?_⟩
        · rw [Intake.drain]
          split <;> simp_all
        · rw [firstFault?_replicate]
          rfl
      | ok value =>
        have hdrain : intake.drain = intake.advance.drain := by
          rw [Intake.drain]
          split <;> simp_all
        have hknown : List.replicate intake.next (some (.ok ())) ++ some (.ok value) :: rest =
            List.replicate intake.advance.next (some (.ok () : Outcome)) ++ rest := by
          simp [Intake.advance, List.replicate_succ']
        rw [hdrain]
        rw [hknown] at hr ⊢
        exact ih (held_advance hheld) hr

theorem Waits.receive (h : intake.Waits known) {arrival : Outcome × Nat}
    (hm : known[arrival.2]? = some none) :
    (intake.receive arrival).Holds (known.set arrival.2 (some arrival.1)) ∧
      (intake.receive arrival).running =
        (known.set arrival.2 (some arrival.1)).countP Option.isNone := by
  refine ⟨h.holds.receive hm, ?_⟩
  obtain ⟨hlt, hm⟩ := List.getElem?_eq_some_iff.mp hm
  simp [Intake.receive, h.running, List.countP_set hlt, hm]

/-- **What is collected at each moment.** The outcome of the siblings of which something is known,
whatever the order in which it came in; while they have none, some sibling is still to end. -/
theorem Waits.collect (h : intake.Waits known) (ha : Awaits known arrivals) :
    (∃ outcome, intake.collect arrivals = .returned outcome ∧
      firstFault? (learn known arrivals) = some outcome) ∨
    ∃ later, intake.collect arrivals = .waiting later ∧
      firstFault? (learn known arrivals) = none := by
  induction arrivals generalizing intake known with
  | nil =>
    have hstands := h.stands
    rw [Intake.collect]
    by_cases hn : intake.next < intake.held.length
    · rw [if_pos hn] at hstands ⊢
      have hrunning : intake.running ≠ 0 := by
        rw [h.running, Nat.ne_zero_iff_zero_lt, List.countP_pos_iff]
        exact ⟨none, none_mem_of_firstFault? hstands, rfl⟩
      exact .inr ⟨intake, if_neg hrunning, hstands⟩
    · rw [if_neg hn] at hstands ⊢
      exact .inl ⟨_, rfl, hstands⟩
  | cons arrival rest ih =>
    have hstands := h.stands
    rw [Intake.collect]
    by_cases hn : intake.next < intake.held.length
    · rw [if_pos hn]
      obtain ⟨hreceived, hrunning⟩ := h.receive (ha.missing arrival List.mem_cons_self)
      rcases hreceived.drain hrunning with ⟨raised, hd, hf⟩ | ⟨later, hd, hw⟩
      · rw [hd]
        exact .inl ⟨_, rfl, ha.tail.firstFault?_learn hf⟩
      · rw [hd]
        exact ih hw ha.tail
    · rw [if_neg hn] at hstands ⊢
      exact .inl ⟨_, rfl, ha.firstFault?_learn hstands⟩

theorem Waits.collect_eq_returned (h : intake.Waits known) (ha : Awaits known arrivals)
    {outcome : Outcome} :
    intake.collect arrivals = .returned outcome ↔
      firstFault? (learn known arrivals) = some outcome := by
  rcases h.collect ha with ⟨other, hc, hf⟩ | ⟨later, hc, hf⟩
  · rw [hc, hf, Status.returned.injEq, Option.some.injEq]
  · rw [hc, hf]
    exact ⟨nofun, nofun⟩

end Intake

section Siblings

variable {outcomes : List Outcome} {arrivals : List (Outcome × Nat)}

@[simp] theorem Task.outcome?_ended (outcome : Outcome) :
    (ended outcome).outcome? = some outcome := by
  match outcome with
  | .ok () => rfl
  | .error _ => rfl

/-- When all outcomes are known, they come to that of the siblings done one after another. -/
theorem firstFault?_map_some (outcomes : List Outcome) :
    firstFault? (outcomes.map some) = some (outcomes.forM id) := by
  induction outcomes with
  | nil => rfl
  | cons first rest ih =>
    match first with
    | .ok () => exact ih
    | .error _ => rfl

theorem Task.siblings_eq (unfinished : List Task → Task) (tasks : List Task) :
    siblings unfinished tasks =
      match firstFault? (tasks.map outcome?) with
      | some outcome => ended outcome
      | none => unfinished tasks := by
  rw [siblings, verdict_eq_firstFault?]
  match firstFault? (tasks.map outcome?) with
  | some (.ok ()) => rfl
  | some (.error _) => rfl
  | none => rfl

/-- Each of the siblings comes in at most once. -/
theorem awaits_of_perm (h : arrivals.Perm outcomes.zipIdx) (count : Nat) :
    Awaits (List.replicate outcomes.length none) (arrivals.take count) := by
  refine ⟨fun arrival ha => ?_, ?_⟩
  · have hplace := List.mem_zipIdx_iff_getElem?.mp (h.subset (List.mem_of_mem_take ha))
    rw [List.getElem?_replicate, if_pos (List.getElem?_eq_some_iff.mp hplace).1]
  · have hnodup : (arrivals.map Prod.snd).Nodup := by
      rw [(h.map Prod.snd).nodup_iff, List.zipIdx_map_snd]
      exact List.nodup_range'
    exact hnodup.sublist ((List.take_sublist _ _).map _)

theorem getElem?_learn_of_perm (h : arrivals.Perm outcomes.zipIdx) (count place : Nat)
    (outcome : Outcome) :
    (learn (List.replicate outcomes.length none) (arrivals.take count))[place]? =
        some (some outcome) ↔
      outcomes[place]? = some outcome ∧ place ∈ (arrivals.take count).map Prod.snd := by
  rw [(awaits_of_perm h count).getElem?_learn]
  constructor
  · rintro (ha | hr)
    · exact ⟨List.mem_zipIdx_iff_getElem?.mp (h.subset (List.mem_of_mem_take ha)),
        List.mem_map_of_mem ha⟩
    · simp [List.getElem?_replicate] at hr
  · rintro ⟨ho, ha⟩
    obtain ⟨⟨other, _⟩, harrival, rfl⟩ := List.mem_map.mp ha
    have hother := List.mem_zipIdx_iff_getElem?.mp (h.subset (List.mem_of_mem_take harrival))
    obtain rfl : other = outcome := Option.some.inj (hother.symm.trans ho)
    exact .inl harrival

theorem learn_of_perm (h : arrivals.Perm outcomes.zipIdx) :
    learn (List.replicate outcomes.length none) arrivals = outcomes.map some := by
  refine List.ext_getElem? fun place => ?_
  rw [List.getElem?_map]
  cases ho : outcomes[place]? with
  | none =>
    rw [Option.map_none, List.getElem?_eq_none_iff, length_learn, List.length_replicate]
    exact List.getElem?_eq_none_iff.mp ho
  | some outcome =>
    have hl := getElem?_learn_of_perm h arrivals.length place outcome
    rw [List.take_length] at hl
    have hplace : (outcome, place) ∈ outcomes.zipIdx := List.mem_zipIdx_iff_getElem?.mpr ho
    exact hl.mpr ⟨ho, List.mem_map_of_mem (h.mem_iff.mpr hplace)⟩

/-- Some siblings have come to a fault exactly when the first to raise one and all before it have come
in. -/
theorem firstFault?_learn_eq_error (h : arrivals.Perm outcomes.zipIdx) (count : Nat)
    (raised : Fault) :
    firstFault? (learn (List.replicate outcomes.length none) (arrivals.take count)) =
        some (.error raised) ↔
      ∃ place : Nat, outcomes[place]? = some (.error raised) ∧
        (∀ before < place, outcomes[before]? = some (.ok ())) ∧
        ∀ needed ≤ place, needed ∈ (arrivals.take count).map Prod.snd := by
  rw [firstFault?_eq_error]
  refine exists_congr fun place => ?_
  simp only [getElem?_learn_of_perm h count]
  constructor
  · rintro ⟨⟨hraised, hcame⟩, hbefore⟩
    refine ⟨hraised, fun before hlt => (hbefore before hlt).1, fun needed hle => ?_⟩
    rcases Nat.lt_or_eq_of_le hle with hlt | rfl
    · exact (hbefore needed hlt).2
    · exact hcame
  · rintro ⟨hraised, hbefore, hcame⟩
    exact ⟨⟨hraised, hcame place (Nat.le_refl _)⟩,
      fun before hlt => ⟨hbefore before hlt, hcame before (Nat.le_of_lt hlt)⟩⟩

/-- What is known of the tasks is what has been learnt. -/
theorem map_outcome?_eq_learn (h : arrivals.Perm outcomes.zipIdx) {count : Nat} {tasks : List Task}
    (hlength : tasks.length = outcomes.length)
    (htasks : ∀ place outcome, tasks[place]?.bind Task.outcome? = some outcome ↔
      (outcome, place) ∈ arrivals.take count) :
    tasks.map Task.outcome? =
      learn (List.replicate outcomes.length none) (arrivals.take count) := by
  refine List.ext_getElem (by simp [hlength]) fun place hp hq => ?_
  rw [List.length_map] at hp
  refine Option.ext fun outcome => ?_
  have htask := htasks place outcome
  rw [List.getElem?_eq_getElem hp, Option.bind_some] at htask
  have hlearn := (awaits_of_perm h count).getElem?_learn place outcome
  rw [List.getElem?_eq_getElem hq, Option.some.injEq] at hlearn
  rw [List.getElem_map, htask, hlearn]
  simp [List.getElem?_replicate]

/-- **The order of arrival does not matter.** Siblings that are done together return what they
return one after another, in whatever order their outcomes come in. At each moment before that,
they have returned successfully exactly when all have succeeded and come in, and with a fault
exactly when a first sibling has raised it and all up to that one have come in; otherwise a sibling
is still to come in, and they wait for it. This is what joined tasks are at that moment. -/
theorem Intake.collect_any_order (outcomes : List Outcome) (arrivals : List (Outcome × Nat))
    (h : arrivals.Perm outcomes.zipIdx) :
    (start outcomes.length).collect arrivals = .returned (outcomes.forM id) ∧
    (∀ limit depth,
      Task.dispatch limit depth (outcomes.map Task.ended) = .ended (outcomes.forM id)) ∧
    ∀ count status, (start outcomes.length).collect (arrivals.take count) = status →
      (status = .returned (.ok ()) ↔
        ∀ place < outcomes.length,
          outcomes[place]? = some (.ok ()) ∧ place ∈ (arrivals.take count).map Prod.snd) ∧
      (∀ raised, status = .returned (.error raised) ↔
        ∃ place : Nat, outcomes[place]? = some (.error raised) ∧
          (∀ before < place, outcomes[before]? = some (.ok ())) ∧
          ∀ needed ≤ place, needed ∈ (arrivals.take count).map Prod.snd) ∧
      (∀ intake, status ≠ .broke intake) ∧
      ∀ tasks : List Task, tasks.length = outcomes.length →
        (∀ place outcome, tasks[place]?.bind Task.outcome? = some outcome ↔
          (outcome, place) ∈ arrivals.take count) →
        Task.joined tasks = status.task tasks := by
  have hstart := waits_start outcomes.length
  have hall := (hstart.collect_eq_returned (awaits_of_perm h arrivals.length)).mpr (by
    rw [List.take_length, learn_of_perm h, firstFault?_map_some])
  refine ⟨by rwa [List.take_length] at hall, fun limit depth => ?_, ?_⟩
  · have hknown : (outcomes.map Task.ended).map Task.outcome? = outcomes.map some := by
      rw [List.map_map]
      exact List.map_congr_left fun outcome _ => Task.outcome?_ended outcome
    rw [Task.dispatch, Task.joined, Task.inOrder]
    split <;> rw [Task.siblings_eq, hknown, firstFault?_map_some]
  rintro count _ rfl
  have hawaits := awaits_of_perm h count
  refine ⟨?_, fun raised => ?_, fun intake hb => ?_, fun tasks hlength htasks => ?_⟩
  · rw [hstart.collect_eq_returned hawaits, firstFault?_eq_ok, length_learn,
      List.length_replicate]
    exact forall₂_congr fun place _ => getElem?_learn_of_perm h count place _
  · rw [hstart.collect_eq_returned hawaits, firstFault?_learn_eq_error h]
  · rcases hstart.collect hawaits with ⟨_, hc, _⟩ | ⟨_, hc, _⟩ <;> cases hb.symm.trans hc
  · have hknown := map_outcome?_eq_learn h hlength htasks
    rw [Task.joined, Task.siblings_eq, hknown]
    rcases hstart.collect hawaits with ⟨outcome, hc, hf⟩ | ⟨later, hc, hf⟩
    · rw [hc, hf, Status.task]
    · rw [hc, hf, Status.task]

/-- Of three siblings the last two fail and come in before the first, the last of them first: only
when the first has come in do they return, and with the fault of the second. -/
theorem Intake.second_fails_out_of_order :
    (start 3).collect
        [(.error .noOperation, 2), (.error .ambiguousOperation, 1), (.ok (), 0)] =
      .returned (.error .ambiguousOperation) ∧
    ∀ status, (start 3).collect
        [(.error .noOperation, 2), (.error .ambiguousOperation, 1)] = status →
      ∀ raised, status ≠ .returned (.error raised) := by
  have hall := collect_any_order
    [.ok (), .error .ambiguousOperation, .error .noOperation]
    [(.error .noOperation, 2), (.error .ambiguousOperation, 1), (.ok (), 0)]
    (List.reverse_perm (List.zipIdx
      [(.ok () : Outcome), .error .ambiguousOperation, .error .noOperation]))
  refine ⟨hall.1, fun status hs raised hr => ?_⟩
  obtain ⟨place, -, -, hcame⟩ := ((hall.2.2 2 status hs).2.1 raised).mp hr
  have hfirst := hcame 0 (Nat.zero_le _)
  simp at hfirst

end Siblings

end GraphQL
