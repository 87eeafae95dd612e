import GraphQL.Proofs.Compilation
import GraphQL.Proofs.Turns

/-!
# Gathering agrees with unfolding

Gathering follows a fragment once, unfolding wherever it is spread. A fragment that has been
followed to its end adds nothing when it is spread again: its selections unfold to nodes that have
all been seen, where they stand. A fragment that is still being followed is not spread where it
would take part, for then its selections would unfold at a smaller depth than the smallest. So
gathering gives the nodes of the unfolding, each where it occurs for the first time.
-/

namespace GraphQL

namespace Gathering

open FieldGroup

section Invariant

variable (schema : Schema) (document : Document) (context : Context) (runtimeType : TypeDef)

/-- A fragment that has nothing left to add: it does not apply, or the nodes to which its selections
unfold have been seen. -/
def Spent (seen : List Spot) (name : String) : Prop :=
  ∀ fragment, document.fragment? name = some fragment →
    applies schema context fragment.condition runtimeType = .ok false ∨
    applies schema context fragment.condition runtimeType = .ok true ∧ ∃ depth nodes,
      Unfolds schema document context runtimeType depth
        (Spot.locate { fragment := some name } fragment.selections) (.ok nodes) ∧
      ∀ entry ∈ nodes, entry.1 ∈ seen

/-- A fragment whose selections do not unfold at less than the depth. -/
def Deep (depth : Nat) (name : String) : Prop :=
  ∀ fragment, document.fragment? name = some fragment →
    applies schema context fragment.condition runtimeType = .ok true ∧
    ∀ less < depth, ∀ result, ¬ Unfolds schema document context runtimeType less
      (Spot.locate { fragment := some name } fragment.selections) result

/-- What gathering relies on: where the fragments that have been followed are, and that nothing has
been seen of what is left. -/
structure Ready (depth : Nat) (visited : List String) (seen : List Spot)
    (work : List (Spot × Selection)) : Prop where
  followed : ∀ name ∈ visited, Spent schema document context runtimeType seen name ∨
    Deep schema document context runtimeType depth name
  known : ∀ spot ∈ seen, ∀ name, spot.fragment = some name → name ∈ visited
  own : ∀ entry ∈ work, ∀ name, entry.1.fragment = some name → name ∈ visited
  unseen : ∀ entry ∈ work, ∀ spot ∈ seen, ¬ entry.1.Holds spot
  apart : work.Pairwise fun a b => ∀ other, a.1.Holds other → ¬ b.1.Holds other

/-- What gathering has come to when the work is done: which fragments have been followed to their
end, and where the nodes stand. -/
structure Gained (visited later : List String) (seen : List Spot) (work : List (Spot × Selection))
    (nodes : List (Spot × FieldNode)) : Prop where
  grows : ∀ name ∈ visited, name ∈ later
  followed : ∀ name ∈ later, name ∈ visited ∨
    Spent schema document context runtimeType (seen ++ nodes.map Prod.fst) name
  place : ∀ entry ∈ nodes, entry.1 ∈ seen ∨ (∃ first ∈ work, first.1.Holds entry.1) ∨
    ∃ name ∈ later, name ∉ visited ∧ entry.1.fragment = some name

/-- Flattening the work ends in the fault of the unfolding, or in the nodes of the unfolding that
have not been seen. -/
def Tracks (visited : List String) (seen : List Spot) (work : List (Spot × Selection)) :
    Except Fault (List (Spot × FieldNode)) → Prop
  | .error raised =>
    flatten schema document context runtimeType visited (work.map Prod.snd) = .error raised
  | .ok nodes => ∃ later,
    flatten schema document context runtimeType visited (work.map Prod.snd) =
      .ok ((firsts seen nodes).map Prod.snd, later) ∧
    Gained schema document context runtimeType visited later seen work nodes

end Invariant

variable {schema : Schema} {document : Document} {context : Context} {runtimeType : TypeDef}
  {depth less : Nat} {visited later last : List String} {seen more : List Spot}
  {entry : Spot × Selection} {work : List (Spot × Selection)}
  {nodes others : List (Spot × FieldNode)} {result : Except Fault (List (Spot × FieldNode))}

theorem Spent.mono {name : String} (h : Spent schema document context runtimeType seen name)
    (hs : seen ⊆ more) : Spent schema document context runtimeType more name := by
  intro fragment hf
  refine (h fragment hf).imp_right fun ⟨ha, depth, nodes, hu, hn⟩ => ?_
  exact ⟨ha, depth, nodes, hu, fun entry he => hs (hn entry he)⟩

theorem Deep.anti {name : String} (h : Deep schema document context runtimeType depth name)
    (hle : less ≤ depth) : Deep schema document context runtimeType less name :=
  fun fragment hf => ⟨(h fragment hf).1, fun least hl => (h fragment hf).2 least (hl.trans_le hle)⟩

/-- What is left behind the first selection is ready when that has been gathered. -/
theorem Ready.after (h : Ready schema document context runtimeType depth visited seen (entry :: work))
    (hg : Gained schema document context runtimeType visited later seen [entry] nodes) :
    Ready schema document context runtimeType depth later (seen ++ nodes.map Prod.fst) work := by
  obtain ⟨hfirst, hrest⟩ := List.pairwise_cons.mp h.apart
  have hplace : ∀ spot ∈ seen ++ nodes.map Prod.fst, spot ∈ seen ∨ entry.1.Holds spot ∨
      ∃ name ∈ later, name ∉ visited ∧ spot.fragment = some name := by
    intro spot hs
    rcases List.mem_append.mp hs with hs | hs
    · exact .inl hs
    · obtain ⟨node, hn, rfl⟩ := List.mem_map.mp hs
      simpa using hg.place node hn
  constructor
  case followed =>
    intro name hn
    rcases hg.followed name hn with hv | hspent
    · exact (h.followed name hv).imp_left fun hs => hs.mono (List.subset_append_left _ _)
    · exact .inl hspent
  case known =>
    intro spot hs name hname
    rcases hplace spot hs with hs | hheld | ⟨new, hn, -, hnew⟩
    · exact hg.grows name (h.known spot hs name hname)
    · exact hg.grows name (h.own entry List.mem_cons_self name (hheld.1 ▸ hname))
    · obtain rfl := Option.some.inj (hname.symm.trans hnew)
      exact hn
  case own =>
    exact fun other ho name hname =>
      hg.grows name (h.own other (List.mem_cons_of_mem _ ho) name hname)
  case unseen =>
    intro other ho spot hs hheld
    rcases hplace spot hs with hs | hfirstHeld | ⟨name, -, hfresh, hname⟩
    · exact h.unseen other (List.mem_cons_of_mem _ ho) spot hs hheld
    · exact hfirst other ho spot hfirstHeld hheld
    · exact hfresh (h.own other (List.mem_cons_of_mem _ ho) name (hheld.1 ▸ hname))
  case apart => exact hrest

/-- The first selection is ready on its own. -/
theorem Ready.first
    (h : Ready schema document context runtimeType depth visited seen (entry :: work)) :
    Ready schema document context runtimeType depth visited seen [entry] where
  followed := h.followed
  known := h.known
  own := fun other ho => h.own other (List.mem_singleton.mp ho ▸ List.mem_cons_self)
  unseen := fun other ho => h.unseen other (List.mem_singleton.mp ho ▸ List.mem_cons_self)
  apart := List.pairwise_singleton _ _

theorem Gained.trans
    (h : Gained schema document context runtimeType visited later seen [entry] nodes)
    (hl : Gained schema document context runtimeType later last (seen ++ nodes.map Prod.fst) work
      others) :
    Gained schema document context runtimeType visited last seen (entry :: work)
      (nodes ++ others) := by
  have hplace : ∀ node ∈ nodes, node.1 ∈ seen ∨ (∃ first ∈ entry :: work, first.1.Holds node.1) ∨
      ∃ name ∈ last, name ∉ visited ∧ node.1.fragment = some name := by
    intro node hn
    rcases h.place node hn with hs | ⟨first, hfirst, hheld⟩ | ⟨name, hname, hnew⟩
    · exact .inl hs
    · obtain rfl := List.mem_singleton.mp hfirst
      exact .inr (.inl ⟨first, List.mem_cons_self, hheld⟩)
    · exact .inr (.inr ⟨name, hl.grows name hname, hnew⟩)
  constructor
  case grows => exact fun name hn => hl.grows name (h.grows name hn)
  case followed =>
    intro name hn
    rw [List.map_append, ← List.append_assoc]
    rcases hl.followed name hn with hn | hspent
    · exact (h.followed name hn).imp_right fun hs => hs.mono (List.subset_append_left _ _)
    · exact .inr hspent
  case place =>
    intro node hn
    rcases List.mem_append.mp hn with hn | hn
    · exact hplace node hn
    · rcases hl.place node hn with hs | ⟨first, hfirst, hheld⟩ | ⟨name, hname, hnew, hfragment⟩
      · rcases List.mem_append.mp hs with hs | hs
        · exact .inl hs
        · obtain ⟨other, ho, he⟩ := List.mem_map.mp hs
          exact he ▸ hplace other ho
      · exact .inr (.inl ⟨first, List.mem_cons_of_mem _ hfirst, hheld⟩)
      · exact .inr (.inr ⟨name, hname, fun hv => hnew (h.grows name hv), hfragment⟩)

/-- Nothing comes behind a fault. -/
theorem Tracks.stop {raised : Fault}
    (h : Tracks schema document context runtimeType visited seen [entry] (.error raised)) :
    Tracks schema document context runtimeType visited seen (entry :: work) (.error raised) := by
  have happend := @flatten_append schema document context runtimeType visited [entry.2]
    (work.map Prod.snd)
  simp only [Tracks, List.map_cons, List.map_nil] at h ⊢
  rw [← List.singleton_append, happend, h]
  rfl

/-- The first selection is gathered, then what is left. -/
theorem Tracks.cons
    (h : Tracks schema document context runtimeType visited seen [entry] (.ok nodes))
    (hrest : ∀ later, Gained schema document context runtimeType visited later seen [entry] nodes →
      Tracks schema document context runtimeType later (seen ++ nodes.map Prod.fst) work result) :
    Tracks schema document context runtimeType visited seen (entry :: work)
      (result.map (nodes ++ ·)) := by
  obtain ⟨later, hf, hg⟩ := h
  have happend := @flatten_append schema document context runtimeType visited [entry.2]
    (work.map Prod.snd)
  rw [List.map_cons, List.map_nil] at hf
  rw [hf] at happend
  have htracks := hrest later hg
  cases result with
  | error raised =>
    simp only [Tracks] at htracks
    simp only [Tracks, Except.map, List.map_cons]
    rw [← List.singleton_append, happend]
    simp [Flattened.next, Except.bind, htracks, Flattened.behind, Except.map]
  | ok others =>
    obtain ⟨last, hl, hgl⟩ := htracks
    refine ⟨last, ?_, hg.trans hgl⟩
    rw [List.map_cons, ← List.singleton_append, happend]
    simp [Flattened.next, Except.bind, hl, Flattened.behind, Except.map, firsts_append]

section Selections

variable {spot within : Spot} {selection : Selection} {selections : List Selection}

theorem flatten_nil (visited : List String) :
    flatten schema document context runtimeType visited [] = .ok ([], visited) := by
  rw [flatten]

theorem Gained.refl (visited : List String) (seen : List Spot) (work : List (Spot × Selection)) :
    Gained schema document context runtimeType visited visited seen work [] where
  grows := fun _ hn => hn
  followed := fun _ hn => .inl hn
  place := fun _ hn => nomatch hn

/-- The condition of a fragment that has been followed is a visible type. -/
theorem Ready.answers {name : String} {fragment : FragmentDef}
    (h : Ready schema document context runtimeType depth visited seen work) (hn : name ∈ visited)
    (hf : document.fragment? name = some fragment) :
    ∃ answer, applies schema context fragment.condition runtimeType = .ok answer := by
  rcases h.followed name hn with hs | hd
  · rcases hs fragment hf with ha | ⟨ha, -⟩
    · exact ⟨false, ha⟩
    · exact ⟨true, ha⟩
  · exact ⟨true, (hd fragment hf).1⟩

/-- A fault that is seen is raised. -/
theorem tracks_fault {raised : Fault}
    (h : Ready schema document context runtimeType depth visited seen [(spot, selection)])
    (hv : view schema document context runtimeType spot selection = .error raised) :
    Tracks schema document context runtimeType visited seen [(spot, selection)]
      (.error raised) := by
  simp only [Tracks, List.map_cons, List.map_nil]
  cases selection with
  | field node => cases hv
  | inline condition directives selections =>
    simp only [view] at hv
    split at hv
    · next hi =>
      rcases ha : appliesIfAny schema context condition runtimeType with fault | answer <;>
        rw [ha] at hv <;> cases hv
      rw [flatten, if_pos hi, ha]
    · cases hv
  | spread name directives =>
    simp only [view] at hv
    split at hv
    · next hf =>
      cases hv
      exact flatten_unknown hf
    · next fragment hf =>
      split at hv
      · next hi =>
        rcases ha : applies schema context fragment.condition runtimeType with fault | answer <;>
          rw [ha] at hv <;> cases hv
        -- no fragment has been followed whose condition raises a fault
        have hfresh : ¬ visited.contains name = true := by
          intro hc
          obtain ⟨answer, hanswer⟩ := h.answers (by simpa using hc) hf
          rw [ha] at hanswer
          cases hanswer
        rw [flatten_spread hf, if_neg hfresh, if_pos hi, ha]
      · cases hv

/-- A selection that does not take part adds nothing. -/
theorem tracks_nothing
    (hv : view schema document context runtimeType spot selection = .ok .nothing) :
    Tracks schema document context runtimeType visited seen [(spot, selection)] (.ok []) := by
  simp only [Tracks, List.map_cons, List.map_nil, firsts]
  cases selection with
  | field node =>
    simp only [view] at hv
    split at hv
    · cases hv
    · next hi =>
      refine ⟨visited, ?_, .refl _ _ _⟩
      rw [flatten, if_neg hi, flatten_nil]
  | inline condition directives selections =>
    refine ⟨visited, ?_, .refl _ _ _⟩
    simp only [view] at hv
    split at hv
    · next hi =>
      rcases ha : appliesIfAny schema context condition runtimeType with fault | (_ | _) <;>
        rw [ha] at hv <;> cases hv
      rw [flatten, if_pos hi, ha]
      exact flatten_nil visited
    · next hi => rw [flatten, if_neg hi, flatten_nil]
  | spread name directives =>
    simp only [view] at hv
    split at hv
    · cases hv
    · next fragment hf =>
      by_cases hc : visited.contains name = true
      · refine ⟨visited, ?_, .refl _ _ _⟩
        rw [flatten_spread hf, if_pos hc, flatten_nil]
      · split at hv
        · next hi =>
          rcases ha : applies schema context fragment.condition runtimeType with fault | (_ | _) <;>
            rw [ha] at hv <;> cases hv
          have hspent : Spent schema document context runtimeType seen name := by
            intro found hfound
            obtain rfl := Option.some.inj (hf.symm.trans hfound)
            exact .inl ha
          -- a fragment that does not apply counts as followed, and has nothing to add
          refine ⟨name :: visited, ?_, fun _ => List.mem_cons_of_mem _, fun other ho => ?_,
            fun _ hn => absurd hn List.not_mem_nil⟩
          · rw [flatten_spread hf, if_neg hc, if_pos hi, ha]
            exact flatten_nil _
          · rcases List.mem_cons.mp ho with rfl | ho
            · exact .inr (by simpa using hspent)
            · exact .inl ho
        · next hi =>
          refine ⟨visited, ?_, .refl _ _ _⟩
          rw [flatten_spread hf, if_neg hc, if_neg hi, flatten_nil]

/-- A field that takes part has not been seen. -/
theorem tracks_field {node : FieldNode}
    (h : Ready schema document context runtimeType depth visited seen [(spot, selection)])
    (hv : view schema document context runtimeType spot selection = .ok (.field node)) :
    Tracks schema document context runtimeType visited seen [(spot, selection)]
      (.ok [(spot, node)]) := by
  obtain ⟨rfl, hi⟩ := view_field hv
  have hunseen : spot ∉ seen := fun hs => h.unseen _ List.mem_cons_self spot hs (.refl spot)
  refine ⟨visited, ?_, fun _ hn => hn, fun _ hn => .inl hn, fun entry he => ?_⟩
  · simp only [List.map_cons, List.map_nil, firsts, if_neg hunseen]
    rw [flatten_field hi, flatten_nil]
    rfl
  · obtain rfl := List.mem_singleton.mp he
    exact .inr (.inl ⟨_, List.mem_cons_self, .refl spot⟩)

/-- Work is tracked as the work that takes its place. -/
theorem Tracks.of_flatten {inner : List (Spot × Selection)} {others : List String}
    (h : Tracks schema document context runtimeType others seen inner result)
    (hf : flatten schema document context runtimeType visited (work.map Prod.snd) =
      flatten schema document context runtimeType others (inner.map Prod.snd))
    (hg : ∀ nodes later, result = .ok nodes →
      Gained schema document context runtimeType others later seen inner nodes →
      Gained schema document context runtimeType visited later seen work nodes) :
    Tracks schema document context runtimeType visited seen work result := by
  cases result with
  | error raised => exact hf.trans h
  | ok nodes =>
    obtain ⟨later, hl, hgained⟩ := h
    exact ⟨later, hf.trans hl, hg nodes later rfl hgained⟩

/-- The selections of an inline fragment are ready where the fragment is. -/
theorem Ready.inline {condition : Option String} {directives : List Directive}
    (h : Ready schema document context runtimeType (depth + 1) visited seen
      [(spot, .inline condition directives selections)]) :
    Ready schema document context runtimeType depth visited seen (spot.locate selections) where
  followed := fun name hn => (h.followed name hn).imp_right fun hd => hd.anti (Nat.le_succ depth)
  known := h.known
  own := fun _ he name hname =>
    h.own _ List.mem_cons_self name ((Spot.fragment_of_mem_locate he).symm.trans hname)
  unseen := fun _ he other ho hh =>
    h.unseen _ List.mem_cons_self other ho (hh.of_mem_locate he)
  apart := Spot.locate_apart spot selections

/-- The selections of an inline fragment are gathered where it stands. -/
theorem tracks_inline {condition : Option String} {directives : List Directive}
    (hi : shouldInclude schema context.bindings directives = true)
    (ha : appliesIfAny schema context condition runtimeType = .ok true)
    (h : Tracks schema document context runtimeType visited seen (spot.locate selections) result) :
    Tracks schema document context runtimeType visited seen
      [(spot, .inline condition directives selections)] result := by
  refine h.of_flatten ?_ fun nodes later _ hg => ⟨hg.grows, hg.followed, ?_⟩
  · rw [Spot.locate_snd, List.map_cons, List.map_nil, flatten, if_pos hi, ha, List.append_nil]
  · refine fun node hn => (hg.place node hn).imp_right (Or.imp_left ?_)
    rintro ⟨first, hfirst, hh⟩
    exact ⟨_, List.mem_cons_self, hh.of_mem_locate hfirst⟩

/-- A fragment that is spread again adds nothing. -/
theorem tracks_again {name : String} {directives : List Directive} {fragment : FragmentDef}
    (h : Ready schema document context runtimeType (depth + 1) visited seen
      [(spot, .spread name directives)])
    (hf : document.fragment? name = some fragment)
    (ha : applies schema context fragment.condition runtimeType = .ok true) (hv : name ∈ visited)
    (hu : Unfolds schema document context runtimeType depth
      (Spot.locate { fragment := some name } fragment.selections) result) :
    Tracks schema document context runtimeType visited seen [(spot, .spread name directives)]
      result := by
  rcases h.followed name hv with hspent | hdeep
  · rcases hspent fragment hf with hno | ⟨-, least, nodes, hnodes, hseen⟩
    · rw [ha] at hno
      cases hno
    · have hc : visited.contains name = true := by simpa using hv
      obtain rfl := hnodes.unique hu
      refine ⟨visited, ?_, fun _ hn => hn, fun _ hn => .inl hn, fun node hn => .inl (hseen node hn)⟩
      rw [firsts_eq_nil hseen, List.map_cons, List.map_nil, flatten_spread hf, if_pos hc,
        flatten_nil]
      rfl
  · exact absurd hu ((hdeep fragment hf).2 depth (Nat.lt_succ_self depth) result)

section Follow

variable {name : String} {directives : List Directive} {fragment : FragmentDef}
  (hf : document.fragment? name = some fragment)
  (ha : applies schema context fragment.condition runtimeType = .ok true)
  (hfresh : name ∉ visited)

include hf ha hfresh

/-- The selections of a fragment that is spread for the first time are ready, at the smallest depth
at which they unfold. -/
theorem Ready.follow
    (h : Ready schema document context runtimeType (depth + 1) visited seen
      [(spot, .spread name directives)]) (hle : less ≤ depth)
    (hleast : ∀ least < less, ∀ other, ¬ Unfolds schema document context runtimeType least
      (Spot.locate { fragment := some name } fragment.selections) other) :
    Ready schema document context runtimeType less (name :: visited) seen
      (Spot.locate { fragment := some name } fragment.selections) := by
  constructor
  case followed =>
    intro other ho
    rcases List.mem_cons.mp ho with rfl | ho
    · refine .inr fun found hfound => ?_
      obtain rfl := Option.some.inj (hf.symm.trans hfound)
      exact ⟨ha, hleast⟩
    · exact (h.followed other ho).imp_right fun hd => hd.anti (hle.trans (Nat.le_succ depth))
  case known => exact fun spot hs other ho => List.mem_cons_of_mem _ (h.known spot hs other ho)
  case own =>
    intro entry he other ho
    obtain rfl := Option.some.inj ((Spot.fragment_of_mem_locate he).symm.trans ho)
    exact List.mem_cons_self
  case unseen =>
    intro entry he other ho hh
    exact hfresh (h.known other ho name (hh.1.trans (Spot.fragment_of_mem_locate he)))
  case apart => exact Spot.locate_apart _ _

/-- A fragment that has been followed has nothing left to add. -/
theorem Gained.follow
    (hg : Gained schema document context runtimeType (name :: visited) later seen
      (Spot.locate { fragment := some name } fragment.selections) nodes)
    (hu : Unfolds schema document context runtimeType less
      (Spot.locate { fragment := some name } fragment.selections) (.ok nodes)) :
    Gained schema document context runtimeType visited later seen work nodes := by
  have hname : name ∈ later := hg.grows name List.mem_cons_self
  constructor
  case grows => exact fun other ho => hg.grows other (List.mem_cons_of_mem _ ho)
  case followed =>
    intro other ho
    rcases hg.followed other ho with ho | hspent
    · rcases List.mem_cons.mp ho with rfl | ho
      · refine .inr fun found hfound => .inr ?_
        obtain rfl := Option.some.inj (hf.symm.trans hfound)
        exact ⟨ha, less, nodes, hu, fun node hn =>
          List.mem_append_right _ (List.mem_map_of_mem hn)⟩
      · exact .inl ho
    · exact .inr hspent
  case place =>
    intro node hn
    rcases hg.place node hn with hs | ⟨first, hfirst, hh⟩ | ⟨new, hnew, hnot, hfragment⟩
    · exact .inl hs
    · exact .inr (.inr ⟨name, hname, hfresh, hh.1.trans (Spot.fragment_of_mem_locate hfirst)⟩)
    · exact .inr (.inr ⟨new, hnew, fun ho => hnot (List.mem_cons_of_mem _ ho), hfragment⟩)

/-- A fragment that is spread for the first time is followed to its end. -/
theorem tracks_follow (hi : shouldInclude schema context.bindings directives = true)
    (hu : Unfolds schema document context runtimeType less
      (Spot.locate { fragment := some name } fragment.selections) result)
    (h : Tracks schema document context runtimeType (name :: visited) seen
      (Spot.locate { fragment := some name } fragment.selections) result) :
    Tracks schema document context runtimeType visited seen [(spot, .spread name directives)]
      result := by
  have hc : ¬ visited.contains name = true := by simpa using hfresh
  refine h.of_flatten ?_ fun nodes later hresult hg => hg.follow hf ha hfresh (hresult ▸ hu)
  rw [Spot.locate_snd, List.map_cons, List.map_nil, flatten_spread hf, if_neg hc, if_pos hi, ha,
    List.append_nil]

end Follow

/-- A fragment that takes part is gathered as its selections are, at any depth up to this one. -/
theorem tracks_fragment
    (h : Ready schema document context runtimeType (depth + 1) visited seen [(spot, selection)])
    (hv : view schema document context runtimeType spot selection =
      .ok (.fragment within selections))
    (hu : Unfolds schema document context runtimeType depth (within.locate selections) result)
    (htracks : ∀ less ≤ depth, ∀ visited,
      Unfolds schema document context runtimeType less (within.locate selections) result →
      Ready schema document context runtimeType less visited seen (within.locate selections) →
      Tracks schema document context runtimeType visited seen (within.locate selections) result) :
    Tracks schema document context runtimeType visited seen [(spot, selection)] result := by
  rcases view_fragment hv with ⟨_, _, rfl, rfl, hi, ha⟩ | ⟨name, _, fragment, rfl, hf, rfl, rfl, hi, ha⟩
  · exact tracks_inline hi ha (htracks depth le_rfl visited hu h.inline)
  · by_cases hv : name ∈ visited
    · exact tracks_again h hf ha hv hu
    · obtain ⟨least, hle, hleast, hno⟩ := hu.shallowest
      have hready := h.follow hf ha hv hle hno
      exact tracks_follow hf ha hv hi hleast (htracks least hle (name :: visited) hleast hready)

end Selections

/-- **Gathering gives what unfolding gives**, but for nodes that have been seen where they stand. The
induction is on the depth, as a fragment is followed at the smallest depth at which it unfolds, then
on the selections. -/
theorem Unfolds.tracks (h : Unfolds schema document context runtimeType depth work result)
    (hr : Ready schema document context runtimeType depth visited seen work) :
    Tracks schema document context runtimeType visited seen work result := by
  induction depth using Nat.strongRecOn generalizing visited seen work result with
  | ind depth ih =>
    induction work generalizing visited seen result with
    | nil =>
      cases h
      exact ⟨visited, flatten_nil visited, .refl _ _ _⟩
    | cons entry rest ihrest =>
      cases h with
      | fault seen => exact (tracks_fault hr.first seen).stop
      | nothing seen tail =>
        exact (tracks_nothing seen).cons fun later hg => ihrest tail (hr.after hg)
      | field seen tail =>
        exact (tracks_field hr.first seen).cons fun later hg => ihrest tail (hr.after hg)
      | fragmentFault seen inner =>
        have hinner := tracks_fragment hr.first seen inner fun less hle visited hu hready =>
          ih less (Nat.lt_succ_of_le hle) hu hready
        exact hinner.stop
      | fragment seen inner tail =>
        have hinner := tracks_fragment hr.first seen inner fun less hle visited hu hready =>
          ih less (Nat.lt_succ_of_le hle) hu hready
        exact hinner.cons fun later hg => ihrest tail (hr.after hg)

/-- Groups that are those of an unfolding. -/
structure Agrees (groups : List FieldGroup) (nodes : List (Spot × FieldNode)) : Prop where
  /-- The response keys are the same in the same order, each with the same first node and with the
  same nodes but for echoes. -/
  grouping : List.Forall₂ Repeats groups (addAll (nodes.map Prod.snd) [])
  /-- The nodes of a group stand in the order in which they occur first. -/
  order : ∀ group ∈ groups, group.nodes =
    ((firsts [] nodes).filter fun entry => entry.2.responseKey = group.key).map Prod.snd
  /-- Each node that occurs is there, -/
  same : ∀ entry, entry ∈ firsts [] nodes ↔ entry ∈ nodes
  /-- and only once. -/
  once : ((firsts [] nodes).map Prod.fst).Nodup

theorem ready_start (selections : List Selection) :
    Ready schema document context runtimeType depth [] [] (Spot.locate {} selections) where
  followed := fun _ hn => nomatch hn
  known := fun _ hs => nomatch hs
  own := by
    intro entry he name hname
    cases (Spot.fragment_of_mem_locate he).symm.trans hname
  unseen := fun _ _ _ hs => nomatch hs
  apart := Spot.locate_apart {} selections

/-- Nodes that stand at the same spot are the same. -/
theorem Unfolds.one_at_spot {selections : List Selection}
    (h : Unfolds schema document context runtimeType depth (Spot.locate {} selections) (.ok nodes)) :
    ∀ a ∈ nodes, ∀ b ∈ nodes, a.1 = b.1 → a = b := by
  have htop : Spot.selection? document selections {} = some (.inline none [] selections) := rfl
  have hstands := h.stands fun _ he => Spot.selection?_of_mem_locate htop he
  intro a ha b hb hspot
  have hsame := (hstands a ha).symm.trans (hspot ▸ hstands b hb)
  exact Prod.ext hspot (Selection.field.inj (Option.some.inj hsame))

theorem agrees_firsts (hone : ∀ a ∈ nodes, ∀ b ∈ nodes, a.1 = b.1 → a = b) :
    Agrees (addAll ((firsts [] nodes).map Prod.snd) []) nodes where
  grouping := by
    have hechoes : Echoes [] ((firsts [] nodes).map Prod.snd) (nodes.map Prod.snd) :=
      @echoes_firsts [] nodes [] hone fun _ => Iff.rfl
    exact repeats_addAll hechoes (fun _ hm => nomatch hm) .nil
  order := by
    intro group hm
    rw [nodes_of_mem hm, List.filter_map]
    rfl
  same := fun entry => (mem_firsts hone entry).trans (and_iff_left List.not_mem_nil)
  once := nodup_firsts

/-- Selections that unfold are gathered to the same fault, or to the same groups. -/
theorem Unfolds.concur_collect {selections : List Selection}
    (h : Unfolds schema document context runtimeType depth (Spot.locate {} selections) result) :
    Concur Agrees (collect schema document context runtimeType selections) result := by
  have htracks := h.tracks (ready_start selections)
  rw [collect_eq_flatten]
  cases result with
  | error raised =>
    simp only [Tracks, Spot.locate_snd] at htracks
    rw [htracks]
    exact .error raised
  | ok nodes =>
    obtain ⟨later, hf, -⟩ := htracks
    rw [Spot.locate_snd] at hf
    rw [hf]
    exact .ok (agrees_firsts h.one_at_spot)

/-- **Gathering ends and agrees with unfolding.** Whatever the fragments spread, the turns come to an
end at which there is a fault or the groups, after at most as many turns as there are selections, and
follow no name twice. If the selections unfold, as those of an acyclic document do, gathering ends in
the fault of the unfolding or in its groups, each node once and in the order of first occurrence. And
a way on which everything takes part leads to each node that is gathered. -/
theorem collect_agrees_with_unfolding (schema : Schema) (document : Document) (context : Context)
    (runtimeType : TypeDef) (selections : List Selection) :
    (∃ points last,
      ({ work := selections } :: points).IsChain (Steps schema document context runtimeType) ∧
      ({ work := selections } :: points).getLast? = some last ∧
      Ends schema document context runtimeType last
        (collect schema document context runtimeType selections)) ∧
    (∀ points,
      ({ work := selections } :: points).IsChain (Steps schema document context runtimeType) →
      points.length ≤
        Selection.weights (selections ++ document.fragments.flatMap FragmentDef.selections) ∧
      ∀ name, ({ work := selections } :: points).Pairwise fun first second =>
        Follows schema document context runtimeType name first →
          ¬ Follows schema document context runtimeType name second) ∧
    (document.Acyclic → ∃ depth unfolded, Unfolds schema document context runtimeType depth
      (Spot.locate {} selections) unfolded) ∧
    (∀ depth unfolded, Unfolds schema document context runtimeType depth
      (Spot.locate {} selections) unfolded →
      Concur Agrees (collect schema document context runtimeType selections) unfolded) ∧
    ∀ groups, collect schema document context runtimeType selections = .ok groups →
      ∃ entries : List (Spot × FieldNode), groups = addAll (entries.map Prod.snd) [] ∧
        ∀ entry ∈ entries, Reached schema document context runtimeType
          (Spot.locate {} selections) entry := by
  refine ⟨exists_turns { work := selections }, fun points h => ⟨?_, pairwise_follows h⟩,
    fun ha => exists_unfolds ha _, fun depth unfolded h => h.concur_collect, fun groups h => ?_⟩
  · have hall : unvisited document [] = document.fragments := by simp [unvisited]
    have hle := length_turns_le h
    rwa [Point.supply, hall] at hle
  · have hwork : ({ work := selections } : Point).work =
        (Spot.locate {} selections).map Prod.snd := by rw [Spot.locate_snd]
    exact traced_gatherFrom hwork h

/-- The theorem at a name that is spread twice, and asked for once more. -/
theorem name_gathered_once :
    (Sample.spreading false).document.Acyclic ∧ ∃ depth nodes,
      Unfolds Sample.schema (Sample.spreading false).document (Sample.spreading false).context
        (.object { name := "User" }) depth (Spot.locate {} [.spread "Named" [], .spread "Profile" []])
        (.ok nodes) ∧
      Agrees [{ key := "name", node := { name := "name" }, others := [{ name := "name" }] }] nodes := by
  obtain ⟨-, -, hunfolds, hagrees, -⟩ := collect_agrees_with_unfolding Sample.schema
    (Sample.spreading false).document (Sample.spreading false).context (.object { name := "User" })
    [.spread "Named" [], .spread "Profile" []]
  obtain ⟨depth, unfolded, hu⟩ := hunfolds (Sample.spreading_acyclic false)
  have hconcur := hagrees depth unfolded hu
  have hcollect : collect Sample.schema (Sample.spreading false).document
      (Sample.spreading false).context (.object { name := "User" })
      [.spread "Named" [], .spread "Profile" []] =
        .ok [{ key := "name", node := { name := "name" }, others := [{ name := "name" }] }] := by
    cbv
  rw [hcollect] at hconcur
  cases hconcur with
  | ok h => exact ⟨Sample.spreading_acyclic false, depth, _, hu, h⟩

end Gathering

end GraphQL
