import GraphQL.Proofs.Issues
import GraphQL.Proofs.Underway
import Mathlib.Data.List.Perm.Subperm
import Mathlib.Data.List.Nodup

/-!
# Permits

A deferred value holds a permit from its start until it settles. No more than the configured number
are held, none of them while a settled value is completed, and a value waits only while all of them
are taken. So whoever holds a permit can go on, and an execution never comes to a standstill.
-/

namespace GraphQL

namespace Work

/-- The issue for which a permit is held. -/
def held? : Work → Option Issue
  | await site purpose .started _ _ => some ⟨site.path, purpose.isAuthorizing⟩
  | await site purpose (.asleep _) _ _ => some ⟨site.path, purpose.isAuthorizing⟩
  | _ => none

/-- The issue whose settled value is routed or completed. -/
def completing? : Work → Option Issue
  | resume site purpose _ => some ⟨site.path, purpose.isAuthorizing⟩
  | complete site _ => some ⟨site.path, false⟩
  | _ => none

/-- True of a value that is about to ask for a permit. -/
def defers : Work → Bool
  | settle _ _ (.deferred _ _) => true
  | _ => false

theorem holdsPermit_eq_isSome (piece : Work) : piece.holdsPermit = piece.held?.isSome := by
  cases piece with
  | await site purpose progress => cases progress <;> rfl
  | _ => rfl

theorem held_ahead {piece : Work} {issue : Issue} (h : piece.held? = some issue) :
    issue ∈ piece.ahead .settlement := by
  cases piece with
  | await site purpose progress =>
    cases progress with
    | queued => cases h
    | started | asleep => exact Option.some.inj h ▸ List.mem_cons_self
  | _ => cases h

theorem isAwaited_of_held {piece : Work} (h : piece.holdsPermit = true) : piece.isAwaited = true := by
  cases piece with
  | await => rfl
  | _ => cases h

/-- What a step does about permits: a value that starts takes one, and one that is held is kept until
its value settles. A value that is completed afterwards has settled, and one that waits afterwards
has just asked. -/
structure Trades (piece : Work) (deeds : List Deed) (pieces : List Work) : Prop where
  started : ∀ issue ∈ deeds.filterMap (Deed.reaches? .start), ∃ left ∈ pieces,
    left.held? = some issue
  keeps : ∀ issue, piece.held? = some issue → (∃ left ∈ pieces, left.held? = some issue) ∨
    issue ∈ deeds.filterMap (Deed.reaches? .settlement)
  held : ∀ left ∈ pieces, ∀ issue, left.held? = some issue →
    piece.held? = some issue ∨ issue ∈ deeds.filterMap (Deed.reaches? .start)
  completing : ∀ left ∈ pieces, ∀ issue, left.completing? = some issue →
    piece.completing? = some issue ∨ issue ∈ deeds.filterMap (Deed.reaches? .settlement)
  queued : ∀ left ∈ pieces, ∀ ticket, left.ticket? = some ticket → piece.defers = true
  count : pieces.countP holdsPermit ≤ [piece].countP holdsPermit ∨
    (∃ ticket, piece.ticket? = some ticket) ∧ pieces.countP holdsPermit = 1

variable {env : Environment} {state : State} {piece : Work} {deeds : List Deed} {outcome : Task}

/-- Work that has nothing to do with permits. -/
theorem trades_idle {pieces : List Work} (hd : deeds.filterMap (Deed.reaches? .start) = [])
    (hp : piece.held? = none) (hl : ∀ left ∈ pieces, left.held? = none ∧ left.completing? = none)
    (ht : piece.defers = false → ∀ left ∈ pieces, left.ticket? = none) :
    Trades piece deeds pieces where
  started issue hi := by
    rw [hd] at hi
    cases hi
  keeps issue hi := by
    rw [hp] at hi
    cases hi
  held left hm issue hi := by
    rw [(hl left hm).1] at hi
    cases hi
  completing left hm issue hi := by
    rw [(hl left hm).2] at hi
    cases hi
  queued left hm ticket hi := by
    by_contra hd
    rw [ht (Bool.eq_false_iff.mpr hd) left hm] at hi
    cases hi
  count := by
    have hnone : pieces.countP holdsPermit = 0 :=
      List.countP_eq_zero.mpr fun left hm => by simp [holdsPermit_eq_isSome, (hl left hm).1]
    exact .inl (hnone ▸ Nat.zero_le _)

/-- Work that leaves one piece without a permit to take, which completes what it did. -/
theorem trades_one {left : Work} (hd : deeds.filterMap (Deed.reaches? .start) = [])
    (hk : ∀ issue, piece.held? = some issue → left.held? = some issue ∨
      issue ∈ deeds.filterMap (Deed.reaches? .settlement))
    (hh : ∀ issue, left.held? = some issue → piece.held? = some issue)
    (hc : ∀ issue, left.completing? = some issue → piece.completing? = some issue ∨
      issue ∈ deeds.filterMap (Deed.reaches? .settlement)) (ht : left.ticket? = none) :
    Trades piece deeds [left] where
  started issue hi := by
    rw [hd] at hi
    cases hi
  keeps issue hi := (hk issue hi).imp (fun h => ⟨left, List.mem_singleton_self _, h⟩) id
  held other hm issue hi := by
    obtain rfl := List.mem_singleton.mp hm
    exact .inl (hh issue hi)
  completing other hm issue hi := by
    obtain rfl := List.mem_singleton.mp hm
    exact hc issue hi
  queued other hm ticket hi := by
    obtain rfl := List.mem_singleton.mp hm
    rw [ht] at hi
    cases hi
  count := by
    refine .inl ?_
    rw [List.countP_singleton, List.countP_singleton, holdsPermit_eq_isSome, holdsPermit_eq_isSome]
    cases hl : left.held? with
    | none => simp
    | some issue => simp [hh issue hl]

/-- Work that asks for nothing yet. -/
theorem trades_opening {pieces : List Work} (hd : deeds.filterMap (Deed.reaches? .start) = [])
    (hp : piece.held? = none) (hl : ∀ left ∈ pieces,
      left.held? = none ∧ left.completing? = none ∧ left.ticket? = none) :
    Trades piece deeds pieces :=
  trades_idle hd hp (fun left hm => ⟨(hl left hm).1, (hl left hm).2.1⟩)
    fun _ left hm => (hl left hm).2.2

theorem Step.trades (h : Step env state piece deeds outcome) :
    Trades piece deeds (Strand.works outcome.strands) := by
  cases h with
  | gatherFault | prepareFault | fieldFault | skip => exact trades_opening rfl rfl (by simp)
  | null | refuse => exact trades_opening rfl rfl (by simp)
  | gather =>
    exact trades_opening rfl rfl (forall_works_gathered ⟨rfl, rfl, rfl⟩ fun _ _ => ⟨rfl, rfl, rfl⟩)
  | prepared => exact trades_opening rfl rfl (forall_works_prepared fun _ _ => ⟨rfl, rfl, rfl⟩)
  | @prepare frame group rest prepared found type | @field frame group found type =>
    exact trades_opening (reaches_fieldDeeds frame group found type) rfl
      (forall_works_work ⟨rfl, rfl, rfl⟩)
  | prepareDeclare | prepareAdmit | fieldDeclare | fieldAdmit | enter =>
    exact trades_opening rfl rfl (forall_works_work ⟨rfl, rfl, rfl⟩)
  | queue ticket =>
    exact trades_idle rfl rfl (forall_works_work ⟨rfl, rfl⟩) fun hd => nomatch hd
  | ready =>
    exact trades_one rfl (fun _ hi => nomatch hi) (fun _ hi => nomatch hi)
      (fun _ hi => .inr (Option.some.inj hi ▸ List.mem_singleton_self _)) rfl
  | settle =>
    exact trades_one rfl (fun _ hi => .inr (Option.some.inj hi ▸ List.mem_singleton_self _))
      (fun _ hi => nomatch hi)
      (fun _ hi => .inr (Option.some.inj hi ▸ List.mem_singleton_self _)) rfl
  | wake | sleep | report =>
    exact trades_one rfl (fun _ hi => .inl hi) (fun _ hi => hi) (fun _ hi => nomatch hi) rfl
  | content =>
    exact trades_one rfl (fun _ hi => nomatch hi) (fun _ hi => nomatch hi) (fun _ hi => .inl hi) rfl
  | @start site purpose ticket stages value =>
    refine ⟨fun issue hi => ?_, fun _ hi => (nomatch hi), fun left hm issue hi => .inr ?_,
      fun left hm issue hi => ?_, fun left hm other hi => ?_, .inr ⟨⟨ticket, rfl⟩, rfl⟩⟩
    · obtain rfl := List.mem_singleton.mp hi
      exact ⟨_, List.mem_singleton_self _, rfl⟩
    · obtain rfl := List.mem_singleton.mp hm
      exact Option.some.inj hi ▸ List.mem_singleton_self _
    · obtain rfl := List.mem_singleton.mp hm
      cases hi
    · obtain rfl := List.mem_singleton.mp hm
      cases hi
  | @complete site content =>
    exact trades_opening (reaches_shaped site _) rfl
      (forall_works_shaped (fun _ _ _ _ _ _ => ⟨rfl, rfl, rfl⟩) fun _ _ _ => ⟨rfl, rfl, rfl⟩)

theorem Prunes.trades (h : Prunes env state piece deeds outcome) :
    Trades piece deeds (Strand.works outcome.strands) := by
  cases h with
  | prepare => exact trades_opening rfl rfl (forall_works_work ⟨rfl, rfl, rfl⟩)
  | field => exact trades_opening rfl rfl (by simp)

/-- Values that are done together or in order are asked for later. -/
theorem Step.orderly (h : Step env state piece deeds outcome) : outcome.Orderly := by
  cases h with
  | gatherFault | prepareFault | fieldFault | skip | null | refuse =>
    exact Task.orderly_of_idle (by simp)
  | @gather frame selections serial groups =>
    cases serial with
    | true =>
      refine Task.orderly_of_idle ?_
      rw [if_pos rfl, works_inOrder]
      exact List.forall_mem_map.mpr fun _ _ => rfl
    | false => exact Task.orderly_work _
  | prepared => exact Task.orderly_of_idle (forall_works_prepared fun _ _ => rfl)
  | prepareDeclare | prepareAdmit | prepare | fieldDeclare | fieldAdmit | field | ready | queue
  | start | wake | settle | sleep | report | content | enter => exact Task.orderly_work _
  | @complete site content =>
    cases Shaped.of env site content site.type with
    | null | leaf | fault => exact Task.orderly_of_idle (by simp [Shaped.outcome])
    | list itemType items =>
      refine Task.orderly_of_idle ?_
      rw [Shaped.outcome, works_dispatch]
      exact List.forall_mem_map.mpr fun _ _ => rfl
    | object type value => exact Task.orderly_work _

theorem Prunes.orderly (h : Prunes env state piece deeds outcome) : outcome.Orderly := by
  cases h with
  | prepare => exact Task.orderly_work _
  | field => exact Task.orderly_of_idle (by simp)

end Work

theorem State.tickets_performAll (state : State) (deeds : List Deed) :
    state.tickets ≤ (state.performAll deeds).tickets := by
  induction deeds generalizing state with
  | nil => exact Nat.le_refl _
  | cons deed rest ih =>
    have hfirst : state.tickets ≤ (state.perform deed).tickets := by
      cases deed with
      | draw => exact Nat.le_succ _
      | _ => exact Nat.le_refl _
    exact hfirst.trans (ih _)

/-- Values that wait hold different tickets, all of which have been drawn. -/
structure Queued (tickets : Nat) (pieces : List Work) : Prop where
  distinct : (pieces.filterMap Work.ticket?).Nodup
  drawn : ∀ ticket ∈ pieces.filterMap Work.ticket?, ticket < tickets

namespace Queued

variable {env : Environment} {state : State} {piece : Work} {left right : List Work}
  {deeds : List Deed}

theorem sublist {tickets : Nat} {pieces : List Work} (h : Queued tickets pieces) {part : List Work}
    (hs : part.Sublist pieces) : Queued tickets part :=
  ⟨h.distinct.sublist (hs.filterMap _), fun ticket hm => h.drawn ticket ((hs.filterMap _).mem hm)⟩

/-- A value that asks for a permit draws the next ticket. -/
theorem replace (h : Queued state.tickets (left ++ piece :: right))
    (hd : (piece.step env state).2 = state.performAll deeds)
    (ht : Work.Trades piece deeds (Strand.works (piece.step env state).1.strands)) :
    Queued (piece.step env state).2.tickets
      (left ++ Strand.works (piece.step env state).1.strands ++ right) := by
  have hothers : Queued state.tickets (left ++ right) := h.sublist (by simp)
  by_cases hdefers : piece.defers = true
  · cases piece with
    | settle site purpose resolution =>
      cases resolution with
      | ready value => cases hdefers
      | deferred stages value =>
        have htickets : (left ++ Strand.works ((Work.settle site purpose
            (.deferred stages value)).step env state).1.strands ++ right).filterMap Work.ticket? =
              left.filterMap Work.ticket? ++ state.tickets :: right.filterMap Work.ticket? := by
          simp [Work.step, Work.ticket?]
        have hperm : (left.filterMap Work.ticket? ++ state.tickets ::
            right.filterMap Work.ticket?).Perm
              (state.tickets :: (left ++ right).filterMap Work.ticket?) := by
          rw [List.filterMap_append]
          exact List.perm_middle
        refine ⟨?_, fun ticket hm => ?_⟩
        · rw [htickets, hperm.nodup_iff]
          exact List.nodup_cons.mpr
            ⟨fun hm => (hothers.drawn _ hm).false, hothers.distinct⟩
        · rw [htickets, hperm.mem_iff] at hm
          rcases List.mem_cons.mp hm with rfl | hm
          · exact Nat.lt_succ_self _
          · exact Nat.lt_succ_of_lt (hothers.drawn ticket hm)
    | _ => cases hdefers
  · have hnone : (Strand.works (piece.step env state).1.strands).filterMap Work.ticket? = [] := by
      refine List.filterMap_eq_nil_iff.mpr fun other hm => ?_
      cases hticket : other.ticket? with
      | none => rfl
      | some ticket => exact absurd (ht.queued other hm ticket hticket) hdefers
    have htickets : (left ++ Strand.works (piece.step env state).1.strands ++ right).filterMap
        Work.ticket? = (left ++ right).filterMap Work.ticket? := by
      simp [List.filterMap_append, hnone]
    refine ⟨htickets ▸ hothers.distinct, fun ticket hm => ?_⟩
    rw [htickets] at hm
    rw [hd]
    exact (hothers.drawn ticket hm).trans_le (state.tickets_performAll deeds)

end Queued

/-- Where the numbers of a list differ, so do their ranks, which are all those below its length. -/
theorem perm_range_rank {numbers : List Nat} (hn : numbers.Nodup) :
    (numbers.map fun number => numbers.countP fun other => other < number).Perm
      (List.range numbers.length) := by
  have hmono : ∀ one ∈ numbers, ∀ other, one < other →
      (numbers.countP fun less => less < one) < numbers.countP fun less => less < other := by
    intro one ho other hlt
    obtain ⟨front, back, rfl⟩ := List.append_of_mem ho
    have hfront : (front.countP fun less => less < one) ≤ front.countP fun less => less < other :=
      List.countP_mono_left fun less _ h => by simp at h ⊢; omega
    have hback : (back.countP fun less => less < one) ≤ back.countP fun less => less < other :=
      List.countP_mono_left fun less _ h => by simp at h ⊢; omega
    simp only [List.countP_append, List.countP_cons, Nat.lt_irrefl, decide_false, hlt, decide_true,
      Bool.false_eq_true, if_false, if_true]
    omega
  have hinj : ∀ one ∈ numbers, ∀ other ∈ numbers,
      (numbers.countP fun less => less < one) = (numbers.countP fun less => less < other) →
        one = other := by
    intro one ho other hp he
    rcases Nat.lt_trichotomy one other with hlt | rfl | hlt
    · exact absurd he (hmono one ho other hlt).ne
    · rfl
    · exact absurd he.symm (hmono other hp one hlt).ne
  have hbelow : ∀ number ∈ numbers,
      (numbers.countP fun other => other < number) < numbers.length := by
    intro number hm
    refine lt_of_le_of_ne List.countP_le_length fun he => ?_
    have hall := List.countP_eq_length.mp he number hm
    simp at hall
  have hsub : (numbers.map fun number => numbers.countP fun other => other < number).Subperm
      (List.range numbers.length) := by
    refine List.Nodup.subperm (List.Nodup.map_on ?_ hn) fun rank hr => ?_
    · exact fun one ho other hp he => hinj one ho other hp he
    · obtain ⟨number, hm, rfl⟩ := List.mem_map.mp hr
      exact List.mem_range.mpr (hbelow number hm)
  exact hsub.perm_of_length_le (by simp)

theorem countP_range_lt {places size : Nat} (h : places ≤ size) :
    (List.range size).countP (fun rank => rank < places) = places := by
  obtain ⟨more, rfl⟩ := Nat.exists_eq_add_of_le h
  rw [List.range_add, List.countP_append]
  have hfirst : (List.range places).countP (fun rank => rank < places) = places := by
    conv_rhs => rw [← List.length_range (n := places)]
    exact List.countP_eq_length.mpr fun rank hr => by simpa using hr
  have hrest : ((List.range more).map (places + ·)).countP (fun rank => rank < places) = 0 :=
    List.countP_eq_zero.mpr fun rank hr => by
      obtain ⟨extra, -, rfl⟩ := List.mem_map.mp hr
      simp
  rw [hfirst, hrest, Nat.add_zero]

/-- So many numbers have so few smaller ones. -/
theorem countP_rank_lt {numbers : List Nat} (hn : numbers.Nodup) {places : Nat}
    (hp : places ≤ numbers.length) :
    numbers.countP (fun one => numbers.countP (fun other => other < one) < places) = places := by
  have hperm := (perm_range_rank hn).countP_eq fun rank => rank < places
  rw [List.countP_map, countP_range_lt hp] at hperm
  exact hperm

/-- The issues that are read off the work have reached a milestone. -/
def Reached (read : Work → Option Issue) (milestone : Milestone) (state : State)
    (pieces : List Work) : Prop :=
  ∀ piece ∈ pieces, ∀ issue, read piece = some issue → issue ∈ state.reached milestone

/-- Whatever has started and not settled holds a permit. -/
def HoldsAll (state : State) (pieces : List Work) : Prop :=
  ∀ issue ∈ state.reached .start, issue ∉ state.reached .settlement →
    ∃ piece ∈ pieces, piece.held? = some issue

section Replace

variable {state : State} {piece : Work} {left right pieces : List Work} {deeds : List Deed}

theorem Reached.sublist {read : Work → Option Issue} {milestone : Milestone}
    (h : Reached read milestone state pieces) {part : List Work} (hs : part.Sublist pieces) :
    Reached read milestone state part := fun piece hm => h piece (hs.mem hm)

theorem Reached.replace {read : Work → Option Issue} {milestone : Milestone}
    (h : Reached read milestone state (left ++ piece :: right))
    (hp : ∀ other ∈ pieces, ∀ issue, read other = some issue →
      read piece = some issue ∨ issue ∈ deeds.filterMap (Deed.reaches? milestone)) :
    Reached read milestone (state.performAll deeds) (left ++ pieces ++ right) := by
  intro other ho issue hi
  rw [State.reached_performAll]
  rcases List.mem_append.mp ho with ho | ho
  · rcases List.mem_append.mp ho with ho | ho
    · exact List.mem_append_left _ (h other (by simp [ho]) issue hi)
    · exact (hp other ho issue hi).elim
        (fun hi => List.mem_append_left _ (h piece (by simp) issue hi)) (List.mem_append_right _)
  · exact List.mem_append_left _ (h other (by simp [ho]) issue hi)

theorem HoldsAll.replace (h : HoldsAll state (left ++ piece :: right))
    (ht : Work.Trades piece deeds pieces) :
    HoldsAll (state.performAll deeds) (left ++ pieces ++ right) := by
  intro issue hi hu
  rw [State.reached_performAll] at hi hu
  rcases List.mem_append.mp hi with hi | hi
  · obtain ⟨holder, hholder, hheld⟩ := h issue hi fun hs => hu (List.mem_append_left _ hs)
    rcases List.mem_append.mp hholder with hholder | hholder
    · exact ⟨holder, by simp [hholder], hheld⟩
    · rcases List.mem_cons.mp hholder with rfl | hholder
      · rcases ht.keeps issue hheld with ⟨kept, hkept, hheld⟩ | hsettled
        · exact ⟨kept, by simp [hkept], hheld⟩
        · exact absurd (List.mem_append_right _ hsettled) hu
      · exact ⟨holder, by simp [hholder], hheld⟩
  · obtain ⟨holder, hholder, hheld⟩ := ht.started issue hi
    exact ⟨holder, by simp [hholder], hheld⟩

/-- A value takes a permit only where one is left. -/
theorem countP_replace_le {limit : Nat}
    (h : (left ++ piece :: right).countP Work.holdsPermit ≤ limit)
    (hf : ∀ ticket, piece.ticket? = some ticket →
      (left ++ piece :: right).countP Work.holdsPermit < limit)
    (ht : Work.Trades piece deeds pieces) :
    (left ++ pieces ++ right).countP Work.holdsPermit ≤ limit := by
  simp only [List.countP_append, List.countP_cons] at h hf ⊢
  rcases ht.count with hcount | ⟨⟨ticket, hticket⟩, hcount⟩
  · simp only [List.countP_cons, List.countP_nil] at hcount
    omega
  · have hfree := hf ticket hticket
    omega

end Replace

namespace Machine

variable {env : Environment} {steps : Nat} {machine next first last : Machine} {address : Address}

/-- The permits fit the work that is left and what has happened. -/
structure Permitted (env : Environment) (machine : Machine) : Prop where
  orderly : machine.task.Orderly
  queued : Queued machine.state.tickets (Strand.works machine.task.strands)
  bound : 0 < env.config.maxConcurrentResolvers →
    (Strand.works machine.task.strands).countP Work.holdsPermit ≤ env.config.maxConcurrentResolvers
  started : Reached Work.held? .start machine.state (Strand.works machine.task.strands)
  settled : Reached Work.completing? .settlement machine.state (Strand.works machine.task.strands)
  held : Strand.Sound machine.task.strands →
    HoldsAll machine.state (Strand.works machine.task.strands)

theorem permitted_start (env : Environment) (operation : Operation) (rootType : TypeDef)
    (root : Json) : (Machine.start operation rootType root).Permitted env where
  orderly := Task.orderly_work _
  queued := ⟨.nil, fun _ hm => nomatch hm⟩
  bound _ := Nat.zero_le _
  started piece hm issue hi := by
    obtain rfl := List.mem_singleton.mp hm
    cases hi
  settled piece hm issue hi := by
    obtain rfl := List.mem_singleton.mp hm
    cases hi
  held _ issue hi := nomatch hi

/-- The permits that are held are those of the work under way. -/
theorem permitsInUse_of_orderly (h : machine.task.Orderly) :
    machine.permitsInUse = (Strand.works machine.task.strands).countP Work.holdsPermit := by
  have hawaited : ∀ pieces : List Work, (pieces.filter Work.isAwaited).countP Work.holdsPermit =
      pieces.countP Work.holdsPermit := by
    intro pieces
    rw [List.countP_filter]
    refine List.countP_congr fun piece _ => ?_
    rw [Bool.and_eq_true]
    exact ⟨fun hp => hp.1, fun hp => ⟨hp, Work.isAwaited_of_held hp⟩⟩
  rw [permitsInUse, ← hawaited, ← hawaited (Strand.works _)]
  exact congrArg (List.countP Work.holdsPermit) h.symm

/-- A value starts where a permit is left. -/
theorem permitsInUse_lt {piece : Work} {ticket : Nat} (hc : machine.canStep env piece = true)
    (ht : piece.ticket? = some ticket) (hn : 0 < env.config.maxConcurrentResolvers) :
    machine.permitsInUse < env.config.maxConcurrentResolvers := by
  cases piece with
  | await site purpose progress =>
    cases progress with
    | queued other =>
      have hentitled : machine.isEntitled env other = true := hc
      simp only [isEntitled, Bool.or_eq_true, beq_iff_eq, decide_eq_true_eq] at hentitled
      omega
    | started | asleep => cases ht
  | _ => cases ht

theorem Permitted.advance (h : machine.Permitted env)
    (move : machine.perform? env (.advance address) = some next) : next.Permitted env := by
  obtain ⟨piece, hm, hcan, htask, hstate⟩ := advance_eq move
  obtain ⟨left, right, hs, hreplace⟩ := Task.strands_replace hm
  obtain ⟨deeds, hdeeds, hstep⟩ := Work.step_account env machine.state piece
  have htrades : Work.Trades piece deeds
      (Strand.works (piece.step env machine.state).1.strands) := by
    rcases hstep with hstep | hstep
    · exact hstep.trades
    · exact hstep.trades
  have horderly : (piece.step env machine.state).1.Orderly := by
    rcases hstep with hstep | hstep
    · exact hstep.orderly
    · exact hstep.orderly
  have htrim := hreplace (piece.step env machine.state).1
  rw [← htask] at htrim
  have hworks : Strand.works machine.task.strands =
      Strand.works left ++ piece :: Strand.works right := by simp [hs]
  have hsub : (Strand.works next.task.strands).Sublist (Strand.works left ++
      Strand.works (piece.step env machine.state).1.strands ++ Strand.works right) := by
    simpa using htrim.works_sublist
  have hqueued := h.queued
  have hbound := h.bound
  have hstarted := h.started
  have hsettled := h.settled
  rw [hworks] at hqueued hbound hstarted hsettled
  refine ⟨?_, ?_, fun hn => ?_, ?_, ?_, fun hsound => ?_⟩
  · rw [htask]
    exact h.orderly.replace hm horderly
  · rw [hstate]
    exact (hqueued.replace hdeeds htrades).sublist hsub
  · refine hsub.countP_le.trans (countP_replace_le (hbound hn) (fun ticket hticket => ?_) htrades)
    have hfree := permitsInUse_lt hcan hticket hn
    rwa [permitsInUse_of_orderly h.orderly, hworks] at hfree
  · rw [hstate, hdeeds]
    exact (hstarted.replace htrades.held).sublist hsub
  · rw [hstate, hdeeds]
    exact (hsettled.replace htrades.completing).sublist hsub
  · -- without a fault no work has been dropped
    have hnext := htrim.eq_of_sound hsound
    have hheld : HoldsAll machine.state (Strand.works left ++ piece :: Strand.works right) := by
      rw [← hworks]
      refine h.held ?_
      rw [hs]
      exact Strand.Sound.work (hnext ▸ hsound) piece
    rw [hnext, Strand.works_append, Strand.works_append, hstate, hdeeds]
    exact hheld.replace htrades

theorem Permitted.pass (h : machine.Permitted env)
    (move : machine.perform? env .pass = some next) : next.Permitted env := by
  obtain ⟨wake, -, rfl⟩ := pass_eq move
  exact ⟨h.orderly, h.queued, h.bound, h.started, h.settled, h.held⟩

/-- True of a value that holds a permit or has one due. -/
def isServed (env : Environment) (machine : Machine) (piece : Work) : Bool :=
  piece.holdsPermit || piece.ticket?.any (machine.isEntitled env)

theorem countP_isServed (machine : Machine) (pieces : List Work) :
    pieces.countP (machine.isServed env) = pieces.countP Work.holdsPermit +
      (pieces.filterMap Work.ticket?).countP (machine.isEntitled env) := by
  induction pieces with
  | nil => rfl
  | cons piece rest ih =>
    rw [List.countP_cons, List.countP_cons, ih]
    cases ht : piece.ticket? with
    | none =>
      rw [List.filterMap_cons_none ht]
      simp only [isServed, ht, Option.any_none, Bool.or_false]
      omega
    | some ticket =>
      have hheld : piece.holdsPermit = false := by
        cases piece with
        | await site purpose progress =>
          cases progress with
          | queued => rfl
          | started | asleep => cases ht
        | _ => rfl
      rw [List.filterMap_cons_some ht, List.countP_cons]
      simp only [isServed, ht, Option.any_some, hheld, Bool.false_or, Bool.false_eq_true, if_false]
      omega

/-- No permit is wasted: they are held by values that are awaited, and whoever waits for one does so
because all of them are taken. -/
structure Permits (env : Environment) (machine : Machine) : Prop where
  bound : machine.permitsInUse ≤ env.config.maxConcurrentResolvers
  /-- A permit is held for a value that has started and not settled. -/
  held : ∀ piece ∈ machine.works, ∀ issue, piece.held? = some issue →
    issue ∈ machine.state.reached .start ∧ issue ∉ machine.state.reached .settlement
  /-- Unless a fault has cut work off, whatever has started and not settled holds a permit; so there
  is no more of it than there are permits. -/
  outstanding : Strand.Sound machine.task.strands →
    (∀ issue ∈ machine.state.reached .start, issue ∉ machine.state.reached .settlement →
      ∃ piece ∈ machine.works, piece.held? = some issue) ∧
    ((machine.state.reached .start).filter fun issue =>
      issue ∉ machine.state.reached .settlement).length ≤ env.config.maxConcurrentResolvers
  /-- A value that is completed has settled and holds no permit. -/
  completing : ∀ piece ∈ machine.works, ∀ issue, piece.completing? = some issue →
    issue ∈ machine.state.reached .settlement ∧
      ∀ other ∈ machine.works, other.held? ≠ some issue
  /-- When a value waits, all permits are held or due, to values that can go on or sleep. -/
  waiting : ∀ piece ∈ machine.works, ∀ ticket, piece.ticket? = some ticket →
    machine.canStep env piece = false →
      machine.works.countP (machine.isServed env) = env.config.maxConcurrentResolvers ∧
      ∀ other ∈ machine.works, machine.isServed env other = true →
        machine.canStep env other = true ∨ other.wake?.isSome
  /-- While work is left, some of it can go on, at once or when the next sleeping value wakes. -/
  proceeds : machine.task.outcome? = none → ∃ move next, machine.perform? env move = some next

/-- Values that are awaited are under way. -/
theorem mem_works_of_awaited (h : machine.task.Orderly) {piece : Work}
    (hm : piece ∈ Strand.works machine.task.strands) (hp : piece.isAwaited = true) :
    piece ∈ machine.works := by
  have hmem : piece ∈ (Strand.works machine.task.strands).filter Work.isAwaited :=
    List.mem_filter.mpr ⟨hm, hp⟩
  rw [h] at hmem
  exact (List.mem_filter.mp hmem).1

/-- Where a value has to wait, the permits are all held or due. -/
theorem countP_isServed_of_waiting {ticket : Nat} (hn : 0 < env.config.maxConcurrentResolvers)
    (hd : (machine.works.filterMap Work.ticket?).Nodup)
    (hb : machine.permitsInUse ≤ env.config.maxConcurrentResolvers)
    (hw : machine.isEntitled env ticket = false) :
    machine.works.countP (machine.isServed env) = env.config.maxConcurrentResolvers := by
  have hentitled : ∀ other, machine.isEntitled env other =
      decide (machine.ahead other < env.config.maxConcurrentResolvers - machine.permitsInUse) := by
    intro other
    rw [isEntitled, (by simpa using hn.ne' : (env.config.maxConcurrentResolvers == 0) = false),
      Bool.false_or]
    exact decide_eq_decide.mpr (by omega)
  rw [hentitled, decide_eq_false_iff_not] at hw
  have hahead : machine.ahead ticket ≤ (machine.works.filterMap Work.ticket?).length :=
    List.countP_le_length
  have hsize : env.config.maxConcurrentResolvers - machine.permitsInUse ≤
      (machine.works.filterMap Work.ticket?).length := by omega
  have hcount := countP_rank_lt hd hsize
  rw [countP_isServed, funext hentitled]
  unfold ahead
  rw [hcount]
  unfold permitsInUse at hb ⊢
  omega

/-- What is served can go on, or sleeps. -/
theorem canStep_of_served {piece : Work} (h : machine.isServed env piece = true) :
    machine.canStep env piece = true ∨ piece.wake?.isSome := by
  cases piece with
  | await site purpose progress =>
    cases progress with
    | queued ticket => exact .inl (by simpa [isServed, Work.holdsPermit, Work.ticket?, canStep] using h)
    | started => exact .inl rfl
    | asleep => exact .inr rfl
  | _ => exact .inl rfl

/-- Unless work has been cut off, whatever has started and not settled is held by work under way. -/
theorem Permitted.holders (h : machine.Permitted env) (hs : Strand.Sound machine.task.strands) :
    ∀ issue ∈ machine.state.reached .start, issue ∉ machine.state.reached .settlement →
      ∃ piece ∈ machine.works, piece.held? = some issue := by
  intro issue hi hu
  obtain ⟨piece, hm, hheld⟩ := h.held hs issue hi hu
  have hpermit : piece.holdsPermit = true := by rw [Work.holdsPermit_eq_isSome, hheld]; rfl
  exact ⟨piece, mem_works_of_awaited h.orderly hm (Work.isAwaited_of_held hpermit), hheld⟩

/-- Different values are held by as many pieces of work. -/
theorem outstanding_le (ht : machine.Tracked env)
    (hh : ∀ issue ∈ machine.state.reached .start, issue ∉ machine.state.reached .settlement →
      ∃ piece ∈ machine.works, piece.held? = some issue) :
    ((machine.state.reached .start).filter fun issue =>
      issue ∉ machine.state.reached .settlement).length ≤ machine.permitsInUse := by
  have hsub : ((machine.state.reached .start).filter fun issue =>
      issue ∉ machine.state.reached .settlement).Subperm (machine.works.filterMap Work.held?) := by
    refine List.Nodup.subperm ((ht.once .start).nodup.filter _) fun issue hi => ?_
    obtain ⟨hi, hu⟩ := List.mem_filter.mp hi
    obtain ⟨piece, hm, hheld⟩ := hh issue hi (by simpa using hu)
    exact List.mem_filterMap.mpr ⟨piece, hm, hheld⟩
  refine hsub.length_le.trans (le_of_eq ?_)
  rw [List.length_filterMap_eq_countP, permitsInUse]
  exact List.countP_congr fun piece _ => by rw [Work.holdsPermit_eq_isSome]

theorem Permitted.permits (h : machine.Permitted env) (ht : machine.Tracked env)
    (hn : machine.task.Normal) (hp : 0 < env.config.maxConcurrentResolvers) :
    machine.Permits env := by
  have hleft : ∀ piece ∈ machine.works, piece ∈ Strand.works machine.task.strands :=
    fun piece hm => (Task.frontier_sublist machine.task).mem hm
  have hbound : machine.permitsInUse ≤ env.config.maxConcurrentResolvers := by
    rw [permitsInUse_of_orderly h.orderly]
    exact h.bound hp
  have hunsettled : ∀ piece ∈ machine.works, ∀ issue, piece.held? = some issue →
      issue ∉ machine.state.reached .settlement := fun piece hm issue hi =>
    (ht.once .settlement).ahead piece (hleft piece hm) issue (Work.held_ahead hi)
  refine ⟨hbound, fun piece hm issue hi => ⟨h.started piece (hleft piece hm) issue hi,
    hunsettled piece hm issue hi⟩, fun hsound => ?_, fun piece hm issue hi => ?_,
    fun piece hm ticket hticket hwaits => ?_, fun hunfinished => ?_⟩
  · exact ⟨h.holders hsound, (outstanding_le ht (h.holders hsound)).trans hbound⟩
  · have hsettled := h.settled piece (hleft piece hm) issue hi
    exact ⟨hsettled, fun other ho hheld => hunsettled other ho issue hheld hsettled⟩
  · have hdistinct : (machine.works.filterMap Work.ticket?).Nodup :=
      h.queued.distinct.sublist ((Task.frontier_sublist machine.task).filterMap _)
    have hentitled : machine.isEntitled env ticket = false := by
      cases piece with
      | await site purpose progress =>
        cases progress with
        | queued other => exact Option.some.inj hticket ▸ hwaits
        | started | asleep => cases hticket
      | _ => cases hticket
    exact ⟨countP_isServed_of_waiting hp hdistinct hbound hentitled,
      fun other _ hserved => canStep_of_served hserved⟩
  · rcases next_step hn hunfinished with ⟨address, next, -, move⟩ | ⟨later, -, -, -, move, -, -⟩
    · exact ⟨_, next, move⟩
    · exact ⟨_, later, move⟩

end Machine

namespace Executor

/-- **Permits are held while values are awaited, and no longer.** In every run, at every moment, no
more deferred values hold a permit than the configuration allows, which are those that have started
and not settled; a value waits only while all permits are taken by others that can go on or sleep.
So no execution comes to a standstill. -/
theorem permits_kept {executor : Executor} {schema : Schema} {request : Request}
    {env : Environment} {machine last : Machine} {steps : Nat}
    (hn : 0 < executor.config.maxConcurrentResolvers)
    (hs : executor.start schema request = .ok (env, machine))
    (hr : Machine.Run env steps machine last) : last.Permits env := by
  have htracked := tracked_start hs
  obtain ⟨operation, rootType, rfl, rfl⟩ := start_ok hs
  have hnormal := hr.normal (.work _)
  have hpermitted : (Machine.start operation rootType request.root).Permitted
      (executor.environment schema request operation) := Machine.permitted_start _ _ _ _
  obtain ⟨hlast, htracked⟩ := hr.preserves_tracked (fun _ move hm => hm.advance move)
    (fun move hm => hm.pass move) htracked hpermitted
  exact hlast.permits htracked hnormal hn

end Executor

namespace Sample

/-- Names take a while, and there is one permit. -/
def crowded : Executor :=
  executor (.deferred [.pause 5] (.value (.str "Ada"))) { maxConcurrentResolvers := 1 }

/-- The name of a user, under a key. -/
def userAs (key : String) : Selection :=
  .field { name := "user", aliasName := some key, selections := [.field { name := "name" }] }

def couple : Request where
  document := { operations := [{ selections := [userAs "first", userAs "second"] }] }

theorem execute_couple :
    (crowded.execute titled couple 50).map (Except.map fun execution =>
      execution.history.filterMap fun (time, event) =>
        event.started?.map fun issue => (time, issue.path)) =
      some (.ok [(0, [.key "first", .key "name"]), (5, [.key "second", .key "name"])]) := by
  cbv

end Sample

namespace Executor

/-- The second name starts when the first has settled. -/
theorem permits_kept_of_couple :
    ∃ env machine last steps, Sample.crowded.start Sample.titled Sample.couple =
        .ok (env, machine) ∧ Machine.Run env steps machine last ∧
      (last.state.history.reverse.filterMap fun (time, event) =>
        event.started?.map fun issue => (time, issue.path)) =
          [(0, [.key "first", .key "name"]), (5, [.key "second", .key "name"])] ∧
      last.Permits env := by
  obtain ⟨execution, hreaches, hseen⟩ := Reaches.of_execute Sample.execute_couple
  cases hreaches with
  | @ended env machine last steps _ hs hr he =>
    refine ⟨env, machine, last, steps, hs, hr, ?_, permits_kept (by decide) hs hr⟩
    obtain ⟨-, rfl⟩ := Machine.execution_of_result he
    exact hseen

end Executor

end GraphQL
