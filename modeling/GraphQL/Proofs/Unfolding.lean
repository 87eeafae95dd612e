import GraphQL.Proofs.Acyclic
import GraphQL.Proofs.Flattening
import GraphQL.Proofs.Following

/-!
# Unfolding selections

Selections unfolded without regard to what has been followed: every fragment that takes part is
replaced by its selections wherever it stands. Field nodes are told apart by where they stand, in
the selections that are unfolded or in a fragment, so a fragment that is spread twice gives the same
nodes twice. Where no fragment leads back to itself the unfolding ends, and gathering gives its
nodes, each where it occurs for the first time.
-/

namespace GraphQL

/-- Where a selection stands. -/
structure Spot where
  /-- The fragment in which it stands, if it is in one. -/
  fragment : Option String := none
  /-- Its place among the selections there, after those of the selections around it. -/
  places : List Nat := []
  deriving DecidableEq

namespace Spot

def child (spot : Spot) (place : Nat) : Spot := { spot with places := spot.places ++ [place] }

/-- The other spot is the same or inside of it. -/
def Holds (spot other : Spot) : Prop :=
  other.fragment = spot.fragment ∧ spot.places <+: other.places

/-- The selections inside of a spot, with the spots at which they stand. -/
def locate (spot : Spot) (selections : List Selection) : List (Spot × Selection) :=
  selections.zipIdx.map fun entry => (spot.child entry.2, entry.1)

/-- The selection at these places inside of a selection. -/
def inside? : List Nat → Selection → Option Selection
  | [], selection => some selection
  | place :: rest, .inline _ _ selections => selections[place]?.bind (inside? rest)
  | _ :: _, _ => none

/-- The selection that stands at a spot; the selections of a fragment, and those that are unfolded,
stand in an inline fragment around them. -/
def selection? (document : Document) (selections : List Selection) (spot : Spot) :
    Option Selection :=
  match spot.fragment with
  | none => inside? spot.places (.inline none [] selections)
  | some name => (document.fragment? name).bind fun fragment =>
    inside? spot.places (.inline (some fragment.condition) [] fragment.selections)

variable {spot other : Spot}

theorem Holds.refl (spot : Spot) : spot.Holds spot := ⟨rfl, List.prefix_refl _⟩

theorem mem_locate {selections : List Selection} {entry : Spot × Selection} :
    entry ∈ spot.locate selections ↔
      ∃ place, selections[place]? = some entry.2 ∧ entry.1 = spot.child place := by
  simp only [locate, List.mem_map]
  constructor
  · rintro ⟨⟨selection, place⟩, hm, rfl⟩
    exact ⟨place, List.mem_zipIdx_iff_getElem?.mp hm, rfl⟩
  · rintro ⟨place, hp, hs⟩
    exact ⟨(entry.2, place), List.mem_zipIdx_iff_getElem?.mpr hp, by rw [← hs]⟩

theorem fragment_of_mem_locate {selections : List Selection} {entry : Spot × Selection}
    (h : entry ∈ spot.locate selections) : entry.1.fragment = spot.fragment := by
  obtain ⟨place, -, hspot⟩ := mem_locate.mp h
  rw [hspot]
  rfl

theorem mem_of_mem_locate {selections : List Selection} {entry : Spot × Selection}
    (h : entry ∈ spot.locate selections) : entry.2 ∈ selections := by
  obtain ⟨place, hp, -⟩ := mem_locate.mp h
  exact List.mem_of_getElem? hp

theorem Holds.of_mem_locate {selections : List Selection} {entry : Spot × Selection}
    (h : entry.1.Holds other) (hm : entry ∈ spot.locate selections) : spot.Holds other := by
  obtain ⟨place, -, hspot⟩ := mem_locate.mp hm
  rw [hspot] at h
  exact ⟨h.1, (List.prefix_append _ _).trans h.2⟩

@[simp] theorem locate_snd (spot : Spot) (selections : List Selection) :
    (spot.locate selections).map Prod.snd = selections := by
  rw [locate, List.map_map]
  exact List.zipIdx_map_fst 0 selections

theorem inside?_child {places : List Nat} {selection : Selection} {condition : Option String}
    {directives : List Directive} {selections : List Selection}
    (h : inside? places selection = some (.inline condition directives selections)) (place : Nat) :
    inside? (places ++ [place]) selection = selections[place]? := by
  induction places generalizing selection with
  | nil =>
    cases h
    simp only [List.nil_append, inside?]
    cases selections[place]? <;> rfl
  | cons first rest ih =>
    cases selection with
    | field node => cases h
    | spread name directives => cases h
    | inline condition directives inner =>
      simp only [inside?] at h
      obtain ⟨next, hn, hr⟩ := Option.bind_eq_some_iff.mp h
      simp only [List.cons_append, inside?, hn, Option.bind_some, ih hr]

/-- The selections of an inline fragment stand inside of it. -/
theorem selection?_of_mem_locate {document : Document} {tops selections : List Selection}
    {condition : Option String} {directives : List Directive} {entry : Spot × Selection}
    (h : spot.selection? document tops = some (.inline condition directives selections))
    (hm : entry ∈ spot.locate selections) : entry.1.selection? document tops = some entry.2 := by
  obtain ⟨place, hp, hspot⟩ := mem_locate.mp hm
  rw [hspot, ← hp]
  obtain ⟨fragment, places⟩ := spot
  cases fragment with
  | none => exact inside?_child h place
  | some name =>
    obtain ⟨fragment, hf, hi⟩ := Option.bind_eq_some_iff.mp h
    simp only [selection?, child, hf, Option.bind_some]
    exact inside?_child hi place

/-- Nothing stands inside of two of the selections. -/
theorem locate_apart (spot : Spot) (selections : List Selection) :
    (spot.locate selections).Pairwise fun a b => ∀ other, a.1.Holds other → ¬ b.1.Holds other := by
  have hplaces : (selections.zipIdx.map Prod.snd).Pairwise (· ≠ ·) := by
    rw [List.zipIdx_map_snd]
    exact List.nodup_range'
  refine List.pairwise_map.mpr ((List.pairwise_map.mp hplaces).imp ?_)
  rintro ⟨first, place⟩ ⟨second, next⟩ hne other ha hb
  have hsame := List.prefix_of_prefix_length_le ha.2 hb.2 (by simp [child])
  exact hne (by simpa [child] using hsame)

end Spot

/-- What is to be seen of a selection: nothing where it does not take part, a field, or the
selections of a fragment, inside of a spot. -/
inductive View where
  | nothing
  | field (node : FieldNode)
  | fragment (spot : Spot) (selections : List Selection)

/-- The entries of which none has been seen at the same spot, nor comes before. -/
def firsts (seen : List Spot) : List (Spot × FieldNode) → List (Spot × FieldNode)
  | [] => []
  | entry :: rest =>
    if entry.1 ∈ seen then firsts seen rest else entry :: firsts (entry.1 :: seen) rest

section Firsts

variable {seen others : List Spot} {entries : List (Spot × FieldNode)}

theorem firsts_congr (h : ∀ spot, spot ∈ seen ↔ spot ∈ others) :
    firsts seen entries = firsts others entries := by
  induction entries generalizing seen others with
  | nil => rfl
  | cons entry rest ih =>
    have hnext : ∀ spot, spot ∈ entry.1 :: seen ↔ spot ∈ entry.1 :: others := fun spot => by
      rw [List.mem_cons, List.mem_cons, h]
    simp only [firsts, h, ih h, ih hnext]

theorem firsts_append (entries more : List (Spot × FieldNode)) :
    firsts seen (entries ++ more) =
      firsts seen entries ++ firsts (seen ++ entries.map Prod.fst) more := by
  induction entries generalizing seen with
  | nil => simp [firsts]
  | cons entry rest ih =>
    by_cases hs : entry.1 ∈ seen
    · simp only [List.cons_append, firsts, if_pos hs, ih]
      congr 1
      refine firsts_congr fun spot => ?_
      simp only [List.mem_append, List.map_cons, List.mem_cons]
      constructor
      · rintro (h | h)
        · exact .inl h
        · exact .inr (.inr h)
      · rintro (h | rfl | h)
        · exact .inl h
        · exact .inl hs
        · exact .inr h
    · simp only [List.cons_append, firsts, if_neg hs, ih]
      congr 2
      refine firsts_congr fun spot => ?_
      simp only [List.mem_append, List.map_cons, List.mem_cons]
      tauto

theorem firsts_eq_nil (h : ∀ entry ∈ entries, entry.1 ∈ seen) : firsts seen entries = [] := by
  induction entries with
  | nil => rfl
  | cons entry rest ih =>
    rw [firsts, if_pos (h entry List.mem_cons_self)]
    exact ih fun other ho => h other (List.mem_cons_of_mem _ ho)

/-- First occurrences are what has not been seen, if only one node stands at a spot. -/
theorem mem_firsts (hone : ∀ a ∈ entries, ∀ b ∈ entries, a.1 = b.1 → a = b)
    (entry : Spot × FieldNode) :
    entry ∈ firsts seen entries ↔ entry ∈ entries ∧ entry.1 ∉ seen := by
  induction entries generalizing seen with
  | nil => simp [firsts]
  | cons first rest ih =>
    have hrest : ∀ a ∈ rest, ∀ b ∈ rest, a.1 = b.1 → a = b := fun a ha b hb =>
      hone a (List.mem_cons_of_mem _ ha) b (List.mem_cons_of_mem _ hb)
    by_cases hs : first.1 ∈ seen
    · rw [firsts, if_pos hs, ih hrest, List.mem_cons]
      constructor
      · exact fun ⟨hm, hn⟩ => ⟨.inr hm, hn⟩
      · rintro ⟨rfl | hm, hn⟩
        · exact absurd hs hn
        · exact ⟨hm, hn⟩
    · rw [firsts, if_neg hs, List.mem_cons, ih hrest, List.mem_cons, List.mem_cons]
      constructor
      · rintro (rfl | ⟨hm, hn⟩)
        · exact ⟨.inl rfl, hs⟩
        · exact ⟨.inr hm, fun hseen => hn (.inr hseen)⟩
      · rintro ⟨rfl | hm, hn⟩
        · exact .inl rfl
        · by_cases he : entry.1 = first.1
          · exact .inl (hone entry (List.mem_cons_of_mem _ hm) first List.mem_cons_self he)
          · exact .inr ⟨hm, not_or.mpr ⟨he, hn⟩⟩

theorem not_mem_seen_of_mem_firsts {entry : Spot × FieldNode} (h : entry ∈ firsts seen entries) :
    entry.1 ∉ seen := by
  induction entries generalizing seen with
  | nil => cases h
  | cons first rest ih =>
    rw [firsts] at h
    split at h
    · exact ih h
    · next hs =>
      rcases List.mem_cons.mp h with rfl | h
      · exact hs
      · exact fun hseen => ih h (List.mem_cons_of_mem _ hseen)

/-- Nothing stands twice among first occurrences. -/
theorem nodup_firsts : ((firsts seen entries).map Prod.fst).Nodup := by
  induction entries generalizing seen with
  | nil => exact List.nodup_nil
  | cons first rest ih =>
    rw [firsts]
    split
    · exact ih
    · refine List.nodup_cons.mpr ⟨fun hm => ?_, ih⟩
      obtain ⟨entry, he, hspot⟩ := List.mem_map.mp hm
      exact not_mem_seen_of_mem_firsts he (hspot ▸ List.mem_cons_self)

/-- Whatever is not a first occurrence echoes a node that has been seen. -/
theorem echoes_firsts {before : List (Spot × FieldNode)}
    (hone : ∀ a ∈ before ++ entries, ∀ b ∈ before ++ entries, a.1 = b.1 → a = b)
    (hseen : ∀ spot, spot ∈ seen ↔ spot ∈ before.map Prod.fst) :
    Echoes (before.map Prod.snd) ((firsts seen entries).map Prod.snd) (entries.map Prod.snd) := by
  induction entries generalizing seen before with
  | nil => exact .nil _
  | cons first rest ih =>
    by_cases hs : first.1 ∈ seen
    · obtain ⟨other, ho, hspot⟩ := List.mem_map.mp ((hseen first.1).mp hs)
      obtain rfl := hone other (List.mem_append_left _ ho) first (by simp) hspot
      rw [firsts, if_pos hs]
      refine .echo (List.mem_map_of_mem ho) (ih (fun a ha b hb => ?_) hseen)
      exact hone a (by simp at ha ⊢; tauto) b (by simp at hb ⊢; tauto)
    · rw [firsts, if_neg hs]
      refine .keep first.2 ?_
      have hnext : ∀ spot, spot ∈ first.1 :: seen ↔ spot ∈ (before ++ [first]).map Prod.fst := by
        intro spot
        rw [List.mem_cons, hseen, or_comm, List.map_append, List.mem_append]
        simp
      simpa using ih (by simpa using hone) hnext

end Firsts

namespace Gathering

section Unfold

variable (schema : Schema) (document : Document) (context : Context) (runtimeType : TypeDef)

/-- What is to be seen of a selection that stands at a spot. -/
def view (spot : Spot) : Selection → Except Fault View
  | .field node =>
    .ok (if shouldInclude schema context.bindings node.directives then .field node else .nothing)
  | .inline condition directives selections =>
    if shouldInclude schema context.bindings directives then
      (appliesIfAny schema context condition runtimeType).map fun applies =>
        if applies then .fragment spot selections else .nothing
    else .ok .nothing
  | .spread name directives =>
    match document.fragment? name with
    | none => .error (.unknownFragment name)
    | some fragment =>
      if shouldInclude schema context.bindings directives then
        (applies schema context fragment.condition runtimeType).map fun applies =>
          if applies then .fragment { fragment := some name } fragment.selections else .nothing
      else .ok .nothing

/-- The field nodes of selections, where each fragment is unfolded wherever it stands, or the first
fault that is met. At most `depth` fragments lie inside each other. -/
inductive Unfolds : Nat → List (Spot × Selection) → Except Fault (List (Spot × FieldNode)) → Prop where
  | nil {depth : Nat} : Unfolds depth [] (.ok [])
  | fault {depth : Nat} {spot : Spot} {selection : Selection} {rest : List (Spot × Selection)}
      {raised : Fault}
      (seen : view schema document context runtimeType spot selection = .error raised) :
      Unfolds depth ((spot, selection) :: rest) (.error raised)
  | nothing {depth : Nat} {spot : Spot} {selection : Selection} {rest : List (Spot × Selection)}
      {result : Except Fault (List (Spot × FieldNode))}
      (seen : view schema document context runtimeType spot selection = .ok .nothing)
      (tail : Unfolds depth rest result) :
      Unfolds depth ((spot, selection) :: rest) (result.map ([] ++ ·))
  | field {depth : Nat} {spot : Spot} {selection : Selection} {rest : List (Spot × Selection)}
      {node : FieldNode} {result : Except Fault (List (Spot × FieldNode))}
      (seen : view schema document context runtimeType spot selection = .ok (.field node))
      (tail : Unfolds depth rest result) :
      Unfolds depth ((spot, selection) :: rest) (result.map ([(spot, node)] ++ ·))
  | fragmentFault {depth : Nat} {spot within : Spot} {selection : Selection}
      {rest : List (Spot × Selection)} {selections : List Selection} {raised : Fault}
      (seen : view schema document context runtimeType spot selection =
        .ok (.fragment within selections))
      (inner : Unfolds depth (within.locate selections) (.error raised)) :
      Unfolds (depth + 1) ((spot, selection) :: rest) (.error raised)
  | fragment {depth : Nat} {spot within : Spot} {selection : Selection}
      {rest : List (Spot × Selection)} {selections : List Selection}
      {nodes : List (Spot × FieldNode)} {result : Except Fault (List (Spot × FieldNode))}
      (seen : view schema document context runtimeType spot selection =
        .ok (.fragment within selections))
      (inner : Unfolds depth (within.locate selections) (.ok nodes))
      (tail : Unfolds (depth + 1) rest result) :
      Unfolds (depth + 1) ((spot, selection) :: rest) (result.map (nodes ++ ·))

end Unfold

variable {schema : Schema} {document : Document} {context : Context} {runtimeType : TypeDef}
  {depth more : Nat} {work : List (Spot × Selection)}
  {result other : Except Fault (List (Spot × FieldNode))}

/-- Selections unfold in one way. -/
theorem Unfolds.unique (h : Unfolds schema document context runtimeType depth work result)
    (ho : Unfolds schema document context runtimeType more work other) : other = result := by
  induction h generalizing more other with
  | nil =>
    cases ho
    rfl
  | fault seen =>
    cases ho with
    | fault seen' =>
      cases seen'.symm.trans seen
      rfl
    | nothing seen' | field seen' | fragmentFault seen' | fragment seen' =>
      cases seen.symm.trans seen'
  | nothing seen _ ih =>
    cases ho with
    | nothing _ tail' => rw [ih tail']
    | fault seen' | field seen' | fragmentFault seen' | fragment seen' =>
      cases seen.symm.trans seen'
  | field seen _ ih =>
    cases ho with
    | field seen' tail' =>
      cases seen.symm.trans seen'
      rw [ih tail']
    | fault seen' | nothing seen' | fragmentFault seen' | fragment seen' =>
      cases seen.symm.trans seen'
  | fragmentFault seen _ ih =>
    cases ho with
    | fragmentFault seen' inner' =>
      cases seen.symm.trans seen'
      exact ih inner'
    | fragment seen' inner' =>
      cases seen.symm.trans seen'
      cases ih inner'
    | fault seen' | nothing seen' | field seen' => cases seen.symm.trans seen'
  | fragment seen _ _ ihinner ih =>
    cases ho with
    | fragmentFault seen' inner' =>
      cases seen.symm.trans seen'
      cases ihinner inner'
    | fragment seen' inner' tail' =>
      cases seen.symm.trans seen'
      obtain rfl := Except.ok.inj (ihinner inner')
      rw [ih tail']
    | fault seen' | nothing seen' | field seen' => cases seen.symm.trans seen'

theorem Unfolds.mono (h : Unfolds schema document context runtimeType depth work result)
    (hle : depth ≤ more) : Unfolds schema document context runtimeType more work result := by
  induction h generalizing more with
  | nil => exact .nil
  | fault seen => exact .fault seen
  | nothing seen _ ih => exact .nothing seen (ih hle)
  | field seen _ ih => exact .field seen (ih hle)
  | fragmentFault seen _ ih =>
    obtain ⟨more, rfl⟩ : ∃ less, more = less + 1 := ⟨more - 1, by omega⟩
    exact .fragmentFault seen (ih (Nat.le_of_succ_le_succ hle))
  | fragment seen _ _ ihinner ih =>
    obtain ⟨more, rfl⟩ : ∃ less, more = less + 1 := ⟨more - 1, by omega⟩
    exact .fragment seen (ihinner (Nat.le_of_succ_le_succ hle)) (ih hle)

/-- Selections that unfold have a smallest depth at which they do. -/
theorem Unfolds.shallowest (h : Unfolds schema document context runtimeType depth work result) :
    ∃ least ≤ depth, Unfolds schema document context runtimeType least work result ∧
      ∀ less < least, ∀ other, ¬ Unfolds schema document context runtimeType less work other := by
  induction depth using Nat.strongRecOn with
  | ind depth ih =>
    by_cases hless : ∃ less < depth, Unfolds schema document context runtimeType less work result
    · obtain ⟨less, hlt, hu⟩ := hless
      obtain ⟨least, hle, hleast⟩ := ih less hlt hu
      exact ⟨least, hle.trans hlt.le, hleast⟩
    · refine ⟨depth, le_rfl, h, fun less hlt other ho => hless ⟨less, hlt, ?_⟩⟩
      obtain rfl := h.unique ho
      exact ho

/-- What unfolds first is put in front of what unfolds next. -/
theorem Unfolds.cons {entry : Spot × Selection}
    (h : Unfolds schema document context runtimeType depth [entry] result)
    (hw : Unfolds schema document context runtimeType depth work other) :
    ∃ both, Unfolds schema document context runtimeType depth (entry :: work) both := by
  cases h with
  | fault seen => exact ⟨_, .fault seen⟩
  | nothing seen _ => exact ⟨_, .nothing seen hw⟩
  | field seen _ => exact ⟨_, .field seen hw⟩
  | fragmentFault seen inner => exact ⟨_, .fragmentFault seen inner⟩
  | fragment seen inner _ => exact ⟨_, .fragment seen inner hw⟩

theorem exists_unfolds_of_forall
    (h : ∀ entry ∈ work, ∃ depth result,
      Unfolds schema document context runtimeType depth [entry] result) :
    ∃ depth result, Unfolds schema document context runtimeType depth work result := by
  induction work with
  | nil => exact ⟨0, _, .nil⟩
  | cons entry rest ih =>
    obtain ⟨a, first, hfirst⟩ := h entry List.mem_cons_self
    obtain ⟨b, next, hnext⟩ := ih fun other ho => h other (List.mem_cons_of_mem _ ho)
    exact ⟨max a b, (hfirst.mono (Nat.le_max_left _ _)).cons (hnext.mono (Nat.le_max_right _ _))⟩

/-- A field that is seen is the selection, and it takes part. -/
theorem view_field {spot : Spot} {selection : Selection} {node : FieldNode}
    (h : view schema document context runtimeType spot selection = .ok (.field node)) :
    selection = .field node ∧ shouldInclude schema context.bindings node.directives = true := by
  cases selection with
  | field other =>
    simp only [view] at h
    split at h
    · next hi =>
      cases h
      exact ⟨rfl, hi⟩
    · cases h
  | inline condition directives selections =>
    simp only [view] at h
    split at h
    · rcases ha : appliesIfAny schema context condition runtimeType with raised | (_ | _) <;>
        rw [ha] at h <;> cases h
    · cases h
  | spread name directives =>
    simp only [view] at h
    split at h
    · cases h
    · next fragment hf =>
      split at h
      · rcases ha : applies schema context fragment.condition runtimeType with raised | (_ | _) <;>
          rw [ha] at h <;> cases h
      · cases h

/-- The selections of a fragment are those of the fragment that is seen. -/
theorem view_fragment {spot within : Spot} {selection : Selection} {selections : List Selection}
    (h : view schema document context runtimeType spot selection =
      .ok (.fragment within selections)) :
    (∃ condition directives, selection = .inline condition directives selections ∧ within = spot ∧
      shouldInclude schema context.bindings directives = true ∧
        appliesIfAny schema context condition runtimeType = .ok true) ∨
    ∃ name directives fragment, selection = .spread name directives ∧
      document.fragment? name = some fragment ∧ within = { fragment := some name } ∧
      selections = fragment.selections ∧
      shouldInclude schema context.bindings directives = true ∧
        applies schema context fragment.condition runtimeType = .ok true := by
  cases selection with
  | field node =>
    simp only [view] at h
    split at h <;> cases h
  | inline condition directives inner =>
    simp only [view] at h
    split at h
    · next hi =>
      rcases ha : appliesIfAny schema context condition runtimeType with raised | (_ | _) <;>
        rw [ha] at h <;> cases h
      exact .inl ⟨condition, directives, rfl, rfl, hi, ha⟩
    · cases h
  | spread name directives =>
    simp only [view] at h
    split at h
    · cases h
    · next fragment hf =>
      split at h
      · next hi =>
        rcases ha : applies schema context fragment.condition runtimeType with raised | (_ | _) <;>
          rw [ha] at h <;> cases h
        exact .inr ⟨name, directives, fragment, rfl, hf, rfl, rfl, hi, ha⟩
      · cases h

/-- A selection unfolds if those of the fragment that is seen do. -/
theorem exists_unfolds_of_inner {spot : Spot} {selection : Selection}
    (h : ∀ within selections, view schema document context runtimeType spot selection =
      .ok (.fragment within selections) → ∃ depth result,
        Unfolds schema document context runtimeType depth (within.locate selections) result) :
    ∃ depth result,
      Unfolds schema document context runtimeType depth [(spot, selection)] result := by
  cases hv : view schema document context runtimeType spot selection with
  | error raised => exact ⟨0, _, .fault hv⟩
  | ok seen =>
    cases seen with
    | nothing => exact ⟨0, _, .nothing hv .nil⟩
    | field node => exact ⟨0, _, .field hv .nil⟩
    | fragment within selections =>
      obtain ⟨depth, result, hu⟩ := h within selections hv
      cases result with
      | error raised => exact ⟨depth + 1, _, .fragmentFault hv hu⟩
      | ok nodes => exact ⟨depth + 1, _, .fragment hv hu .nil⟩

/-- The selections of an acyclic document unfold. -/
theorem exists_unfolds (ha : document.Acyclic) (work : List (Spot × Selection)) :
    ∃ depth result, Unfolds schema document context runtimeType depth work result := by
  have hone : ∀ selection spot, ∃ depth result,
      Unfolds schema document context runtimeType depth [(spot, selection)] result := by
    intro selection
    induction selection using ha.induction with
    | field node =>
      refine fun spot => exists_unfolds_of_inner fun within selections hv => ?_
      rcases view_fragment hv with ⟨_, _, he, _⟩ | ⟨_, _, _, he, _⟩ <;> cases he
    | inline condition directives selections ih =>
      refine fun spot => exists_unfolds_of_inner fun within inner hv =>
        exists_unfolds_of_forall fun entry he => ?_
      rcases view_fragment hv with ⟨_, _, hs, -⟩ | ⟨_, _, _, hs, -⟩
      · cases hs
        exact ih entry.2 (Spot.mem_of_mem_locate he) entry.1
      · cases hs
    | spread name directives ih =>
      refine fun spot => exists_unfolds_of_inner fun within inner hv =>
        exists_unfolds_of_forall fun entry he => ?_
      rcases view_fragment hv with ⟨_, _, hs, -⟩ | ⟨_, _, fragment, hs, hf, -, rfl, -⟩
      · cases hs
      · cases hs
        exact ih fragment hf entry.2 (Spot.mem_of_mem_locate he) entry.1
  exact exists_unfolds_of_forall fun entry _ => hone entry.2 entry.1

theorem map_append_eq_ok {α : Type} {front nodes : List α} {result : Except Fault (List α)}
    (h : result.map (front ++ ·) = .ok nodes) : ∃ rest, result = .ok rest ∧ nodes = front ++ rest := by
  cases result with
  | error raised => cases h
  | ok rest => exact ⟨rest, rfl, (Except.ok.inj h).symm⟩

/-- Each node stands where it is said to stand. -/
theorem Unfolds.stands {tops : List Selection} {nodes : List (Spot × FieldNode)}
    (h : Unfolds schema document context runtimeType depth work (.ok nodes))
    (hw : ∀ entry ∈ work, entry.1.selection? document tops = some entry.2) :
    ∀ entry ∈ nodes, entry.1.selection? document tops = some (.field entry.2) := by
  generalize hresult : Except.ok nodes = result at h
  induction h generalizing nodes with
  | nil =>
    cases hresult
    exact fun _ hm => nomatch hm
  | fault => cases hresult
  | nothing _ _ ih =>
    obtain ⟨rest, rfl, rfl⟩ := map_append_eq_ok hresult.symm
    exact ih (fun entry he => hw entry (List.mem_cons_of_mem _ he)) rfl
  | field seen _ ih =>
    obtain ⟨rest, rfl, rfl⟩ := map_append_eq_ok hresult.symm
    obtain ⟨rfl, -⟩ := view_field seen
    refine fun entry he => (List.mem_cons.mp he).elim (fun he => ?_)
      (ih (fun entry he => hw entry (List.mem_cons_of_mem _ he)) rfl entry)
    rw [he]
    exact hw _ List.mem_cons_self
  | fragmentFault => cases hresult
  | @fragment _ spot within selection _ selections first _ seen _ _ ihinner ih =>
    obtain ⟨rest, rfl, rfl⟩ := map_append_eq_ok hresult.symm
    have hinner : ∀ entry ∈ within.locate selections,
        entry.1.selection? document tops = some entry.2 := by
      intro entry he
      rcases view_fragment seen with ⟨_, _, rfl, rfl, -⟩ | ⟨name, _, fragment, -, hf, rfl, rfl, -⟩
      · exact Spot.selection?_of_mem_locate (hw _ List.mem_cons_self) he
      · have htop : Spot.selection? document tops { fragment := some name } =
            some (.inline (some fragment.condition) [] fragment.selections) := by
          simp [Spot.selection?, hf, Spot.inside?]
        exact Spot.selection?_of_mem_locate htop he
    exact fun entry he => (List.mem_append.mp he).elim (ihinner hinner rfl entry)
      (ih (fun entry he => hw entry (List.mem_cons_of_mem _ he)) rfl entry)

end Gathering

end GraphQL
