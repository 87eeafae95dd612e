import GraphQL.Proofs.Places
import Mathlib.Data.List.Induction

/-!
# Collapses

What writing an entry does to a result tree. A place that is still to be written is pending, or it
lies below a null, where no write lands. A null at a place that does not admit null collapses the
nearest container that does; whatever the container would have come to, it would have become null.
-/

namespace GraphQL

/-- Two paths neither of which leads through the other. -/
def Path.Apart (a b : Path) : Prop := ¬ a <+: b ∧ ¬ b <+: a

theorem Path.Apart.symm {a b : Path} (h : a.Apart b) : b.Apart a := ⟨h.2, h.1⟩

theorem Path.Apart.append {a b : Path} (h : a.Apart b) (rest : Path) : Apart (a ++ rest) b := by
  refine ⟨fun hp => h.1 ((List.prefix_append a rest).trans hp), fun hp => ?_⟩
  rcases List.prefix_or_prefix_of_prefix hp (List.prefix_append a rest) with hb | ha
  · exact h.2 hb
  · exact h.1 ha

theorem Path.apart_of_ne {path : Path} {a b : PathSegment} (h : a ≠ b) :
    Apart (path ++ [a]) (path ++ [b]) := by
  constructor
  · intro hp
    rw [List.prefix_append_right_inj] at hp
    exact h (List.cons_prefix_cons.mp hp).1
  · intro hp
    rw [List.prefix_append_right_inj] at hp
    exact h (List.cons_prefix_cons.mp hp).1.symm

namespace Slot

/-- The path leads through a null. -/
def Dead (slot : Slot) (path : Path) : Prop :=
  ∃ above segment rest, path = above ++ segment :: rest ∧ slot.at? above = some .null

/-- The place is still to be written, or will never be. -/
def Open (slot : Slot) (path : Path) : Prop := slot.at? path = some .pending ∨ slot.Dead path

variable {slot changed old new found : Slot} {path other : Path}

theorem Dead.at?_eq_none (h : slot.Dead path) : slot.at? path = none := by
  obtain ⟨above, segment, rest, rfl, hn⟩ := h
  rw [at?_append, hn]
  cases segment <;> rfl

theorem Dead.append (h : slot.Dead path) (more : Path) : slot.Dead (path ++ more) := by
  obtain ⟨above, segment, rest, rfl, hn⟩ := h
  exact ⟨above, segment, rest ++ more, by simp, hn⟩

theorem Open.eq_pending (h : slot.Open path) (hf : slot.at? path = some found) :
    found = .pending := by
  rcases h with hp | hd
  · exact Option.some.inj (hf.symm.trans hp)
  · rw [hd.at?_eq_none] at hf
    cases hf

/-- Nothing is there below a place that is still to be written. -/
theorem Open.eq_of_prefix (h : slot.Open path) (hp : path <+: other)
    (hf : slot.at? other = some found) : other = path := by
  obtain ⟨rest, rfl⟩ := hp
  cases rest with
  | nil => simp
  | cons segment rest =>
    obtain ⟨hole, child, hc, -, -⟩ := at?_above hf
    exact absurd (h.eq_pending hc) (fill_ne_pending hole child)

theorem dead_of_null {above : Path} (hn : slot.at? above = some .null) (hp : above <+: path)
    (hne : above ≠ path) : slot.Dead path := by
  obtain ⟨rest, rfl⟩ := hp
  cases rest with
  | nil => simp at hne
  | cons segment rest => exact ⟨above, segment, rest, rfl, hn⟩

theorem ne_null_of_prefix {above : Path} (ha : slot.at? above = some old) (hp : above <+: path)
    (hne : above ≠ path) (hf : slot.at? path = some found) : old ≠ .null := by
  rintro rfl
  rw [(dead_of_null ha hp hne).at?_eq_none] at hf
  cases hf

theorem Dead.place (h : slot.Dead other) (hs : Swap path .pending new slot changed) :
    changed.Dead other := by
  obtain ⟨above, segment, rest, rfl, hn⟩ := h
  refine ⟨above, segment, rest, rfl, ?_⟩
  rw [hs.at?_apart, hn]
  · intro hp
    have he := Open.eq_of_prefix (.inl hs.at?_eq) hp hn
    rw [he, hs.at?_eq] at hn
    cases hn
  · intro hp
    by_cases he : above = path
    · rw [he, hs.at?_eq] at hn
      cases hn
    · exact ne_null_of_prefix hn hp he hs.at?_eq rfl

theorem Open.place (h : slot.Open other) (hs : Swap path .pending new slot changed)
    (ha : path.Apart other) : changed.Open other := by
  rcases h with hp | hd
  · exact .inl ((hs.at?_apart ha.1 ha.2).trans hp)
  · exact .inr (hd.place hs)

theorem Open.child (hs : Swap path old new slot changed) {segment : PathSegment}
    (hn : new.at? [segment] = some .pending) : changed.Open (path ++ [segment]) :=
  .inl ((hs.at?_below [segment]).trans hn)

theorem Open.collapse (h : slot.Open other) (hs : Swap path old .null slot changed)
    (hp : old ≠ .pending) (hn : old ≠ .null) : changed.Open other := by
  have hnull : changed.at? path = some .null := by simpa [at?] using hs.at?_below []
  by_cases hb : path <+: other
  · refine .inr (dead_of_null hnull hb ?_)
    rintro rfl
    exact hp (h.eq_pending hs.at?_eq)
  · rcases h with hpend | ⟨above, segment, rest, rfl, hd⟩
    · refine .inl ((hs.at?_apart hb fun ho => ?_).trans hpend)
      have he := Open.eq_of_prefix (.inl hpend) ho hs.at?_eq
      exact hb (he ▸ List.prefix_refl _)
    · refine .inr ⟨above, segment, rest, rfl, (hs.at?_apart ?_ ?_).trans hd⟩
      · exact fun ha => hb (ha.trans (List.prefix_append _ _))
      · intro ha
        by_cases he : above = path
        · rw [he, hs.at?_eq] at hd
          exact hn (Option.some.inj hd)
        · exact ne_null_of_prefix hd ha he hs.at?_eq rfl

end Slot

/-- The keys of an object that is written are distinct. -/
def Entry.Proper : Entry → Prop
  | object keys => keys.Nodup
  | _ => True

namespace Entry

theorem Proper.nodup_names {keys : List String} (h : (object keys).Proper) :
    (Members.names (keys.map fun key => (key, Slot.pending))).Nodup := by
  simpa [Members.names, Function.comp_def, Proper] using h

theorem Proper.slot_object {keys : List String} (h : (object keys).Proper) :
    (object keys).slot = .object (keys.map fun key => (key, .pending)) := by
  simp only [slot, Members.ofList_of_nodup h.nodup_names]

theorem Proper.distinct {entry : Entry} (h : entry.Proper) : entry.slot.Distinct := by
  cases entry with
  | null => exact .null
  | leaf value => exact .leaf value
  | object keys =>
    rw [h.slot_object]
    refine .object h.nodup_names fun member hm => ?_
    obtain ⟨key, -, rfl⟩ := List.mem_map.mp hm
    exact .pending
  | list length =>
    refine .list fun item hi => ?_
    rw [List.eq_of_mem_replicate hi]
    exact .pending

/-- What is inside a written entry is pending. -/
theorem Proper.eq_pending {entry : Entry} (h : entry.Proper) {segment : PathSegment} {rest : Path}
    {found : Slot} (hf : entry.slot.at? (segment :: rest) = some found) :
    rest = [] ∧ found = .pending := by
  obtain ⟨hole, child, he, -, hc⟩ := Slot.at?_cons hf
  have hchild : child = .pending := by
    cases entry with
    | null | leaf => cases hole <;> cases he
    | object keys =>
      rw [h.slot_object] at he
      cases hole with
      | item before after => cases he
      | member before name after fresh =>
        have hm : (name, child) ∈ keys.map fun key => (key, Slot.pending) := by
          rw [Slot.object.inj he]
          simp
        obtain ⟨key, -, hk⟩ := List.mem_map.mp hm
        exact (Prod.mk.inj hk).2.symm
    | list length =>
      cases hole with
      | member before name after fresh => cases he
      | item before after =>
        have hm : child ∈ List.replicate length Slot.pending := by
          rw [Slot.list.inj he]
          simp
        exact List.eq_of_mem_replicate hm
  subst hchild
  cases rest with
  | nil => exact ⟨rfl, (Option.some.inj hc).symm⟩
  | cons segment rest => cases segment <;> cases hc

theorem Proper.eq_null {entry : Entry} (h : entry.Proper) {rest : Path}
    (hf : entry.slot.at? rest = some .null) : rest = [] ∧ entry = .null := by
  cases rest with
  | nil =>
    refine ⟨rfl, ?_⟩
    cases entry with
    | null => rfl
    | leaf | object | list => cases hf
  | cons segment rest =>
    have := (h.eq_pending hf).2
    cases this

theorem Proper.at?_key {keys : List String} (h : (object keys).Proper) {key : String}
    (hk : key ∈ keys) : (object keys).slot.at? [.key key] = some .pending := by
  rw [h.slot_object]
  simp [Slot.at?, Members.get?_of_mem h.nodup_names (List.mem_map.mpr ⟨key, hk, rfl⟩)]

theorem at?_index {length place : Nat} (h : place < length) :
    (list length).slot.at? [.index place] = some .pending := by
  simp [slot, Slot.at?, h]

end Entry

namespace ResultTree

variable {tree next : ResultTree} {path : Path}

theorem containers_append (path : Path) (segment : PathSegment) :
    containers (path ++ [segment]) = path :: containers path := by
  simp only [containers, List.length_append, List.length_singleton, List.range_succ,
    List.reverse_append, List.reverse_singleton, List.singleton_append, List.map_cons]
  congr 1
  · simp
  · apply List.map_congr_left
    intro length hl
    have hlt : length < path.length := by simpa using hl
    exact List.take_append_of_le_length (Nat.le_of_lt hlt)

theorem collapsePoint_append (tree : ResultTree) (path : Path) (segment : PathSegment) :
    tree.collapsePoint (path ++ [segment]) =
      if path = [] ∨ tree.isRequired path = false then path else tree.collapsePoint path := by
  simp only [collapsePoint, containers_append, List.find?_cons]
  by_cases h : path = [] ∨ tree.isRequired path = false
  · have hb : (path.isEmpty || !tree.isRequired path) = true := by simpa using h
    simp [h, hb]
  · have hb : (path.isEmpty || !tree.isRequired path) = false := by simpa using h
    simp only [h, hb, if_false]

theorem isRequired_record (tree : ResultTree) (path : Path) (type : TypeRef) (other : Path) :
    (tree.record path type).isRequired other =
      if path = other then type.isNonNull else tree.isRequired other := by
  by_cases h : path = other <;> simp [isRequired, declaredType?, record, h]

/-- The data are well formed, the root admits null, and where there is a null it is admitted. -/
structure Regular (tree : ResultTree) : Prop where
  distinct : tree.data.Distinct
  root : tree.isRequired [] = false
  nulls : ∀ path, tree.data.at? path = some .null → tree.isRequired path = false

/-- `Written tree path entry propagating next`: how the tree is changed by a write at a place that
is still to be written. -/
inductive Written (tree : ResultTree) (path : Path) (entry : Entry) : Bool → ResultTree → Prop where
  | dropped (propagating : Bool) (dead : tree.data.Dead path) :
      Written tree path entry propagating tree
  | placed {changed : Slot} (swap : Slot.Swap path .pending entry.slot tree.data changed) :
      Written tree path entry false { tree with data := changed }
  | collapsed {point : Path} {segment : PathSegment} {rest : Path} {container changed : Slot}
      (there : tree.data.at? path = some .pending) (below : path = point ++ segment :: rest)
      (admits : tree.isRequired point = false)
      (swap : Slot.Swap point container .null tree.data changed)
      (null : ∀ results, results path = .propagating →
        container.completed tree.isRequired results point = .value .null) :
      Written tree path entry true { tree with data := changed }

theorem write_of_dead (hr : tree.Regular) (hd : tree.data.Dead path) (entry : Entry) :
    tree.write path entry true = tree := by
  obtain ⟨above, segment, rest, rfl, hn⟩ := hd
  have hadmits := hr.nulls above hn
  have hpoint : above <+: tree.collapsePoint (above ++ segment :: rest) := by
    induction rest using List.reverseRecOn with
    | nil =>
      simp [collapsePoint_append, hadmits]
    | append_singleton rest last ih =>
      rw [← List.cons_append, ← List.append_assoc, collapsePoint_append]
      split
      · exact List.prefix_append _ _
      · exact ih
  unfold write write? collapse?
  simp only [if_true]
  split
  · next he =>
    rw [he, List.prefix_nil] at hpoint
    subst hpoint
    obtain hdata : tree.data = .null := Option.some.inj hn
    rw [Option.getD_some, ← hdata]
  · next point _ =>
    generalize tree.collapsePoint _ = point at *
    by_cases he : above = point
    · subst he
      obtain ⟨changed, hs⟩ := Slot.exists_swap hn .null
      rw [hs.refused rfl]
      rfl
    · rw [Slot.update?_of_at?_none _ (Slot.dead_of_null hn hpoint he).at?_eq_none]
      rfl

/-- A null that propagates from a place finds a container to collapse. -/
theorem collapse?_eq (hr : tree.Regular) {found : Slot} (hf : tree.data.at? path = some found)
    (hne : path ≠ []) :
    ∃ point segment rest container changed, path = point ++ segment :: rest ∧
      tree.isRequired point = false ∧
      Slot.Swap point container .null tree.data changed ∧
      (∀ results, found.completed tree.isRequired results path = .propagating →
        container.completed tree.isRequired results point = .value .null) ∧
      tree.collapse? path = some { tree with data := changed } := by
  -- from the inside out: each container either admits the null or passes it on to its own
  induction path using List.reverseRecOn generalizing found with
  | nil => exact absurd rfl hne
  | append_singleton path last ih =>
    obtain ⟨hole, child, hc, rfl, hchild⟩ := Slot.at?_above hf
    obtain rfl : child = found := Option.some.inj hchild
    have hnull : ∀ results,
        child.completed tree.isRequired results (path ++ [hole.segment]) = .propagating →
          (hole.fill child).completed tree.isRequired results path =
            .null (tree.isRequired path) := by
      intro results h
      exact Slot.completed_fill_propagating h
    by_cases hp : path = [] ∨ tree.isRequired path = false
    · have hadmits : tree.isRequired path = false := by
        rcases hp with rfl | hp
        · exact hr.root
        · exact hp
      obtain ⟨changed, hs⟩ := Slot.exists_swap hc .null
      refine ⟨path, hole.segment, [], hole.fill child, changed, rfl, hadmits, hs, ?_, ?_⟩
      · intro results h
        rw [hnull results h, hadmits]
        rfl
      · simp only [collapse?, collapsePoint_append, if_pos hp]
        cases path with
        | nil =>
          rw [hs.root.2]
        | cons segment path =>
          have hupdate := hs.update? (fun slot => if slot.isNull then none else some .null)
            (by cases hole <;> rfl)
          simp only [hupdate, Option.map_some]
    · have hreq : tree.isRequired path = true := by simpa using (not_or.mp hp).2
      obtain ⟨point, segment, rest, container, changed, rfl, hadmits, hs, hcont, hcoll⟩ :=
        ih hc (not_or.mp hp).1
      refine ⟨point, segment, rest ++ [hole.segment], container, changed, by simp, hadmits, hs,
        ?_, ?_⟩
      · intro results h
        apply hcont
        rw [hnull results h, hreq]
        rfl
      · simp only [collapse?, collapsePoint_append, if_neg hp] at hcoll ⊢
        exact hcoll

/-- Every write at a place that is still to be written is dropped, placed or collapses a
container. -/
theorem written (hr : tree.Regular) (ho : tree.data.Open path) (entry : Entry) {propagating : Bool}
    (hp : propagating = true → path ≠ []) :
    tree.Written path entry propagating (tree.write path entry propagating) := by
  rcases ho with hpend | hd
  · cases propagating with
    | false =>
      obtain ⟨changed, hs⟩ := Slot.exists_swap hpend entry.slot
      have hupdate := hs.update? (fun slot => if slot.isPending then some entry.slot else none) rfl
      have hw : tree.write path entry false = { tree with data := changed } := by
        simp [write, write?, place?, hupdate]
      rw [hw]
      exact .placed hs
    | true =>
      obtain ⟨point, segment, rest, container, changed, hb, hadmits, hs, hn, hcoll⟩ :=
        collapse?_eq hr hpend (hp rfl)
      have hw : tree.write path entry true = { tree with data := changed } := by
        simp [write, write?, hcoll]
      rw [hw]
      exact .collapsed hpend hb hadmits hs hn
  · cases propagating with
    | false =>
      have hw : tree.write path entry false = tree := by
        simp [write, write?, place?, Slot.update?_of_at?_none _ hd.at?_eq_none]
      rw [hw]
      exact .dropped false hd
    | true =>
      rw [write_of_dead hr hd]
      exact .dropped true hd

namespace Written

variable {entry : Entry} {propagating : Bool}

theorem isRequired_eq (h : tree.Written path entry propagating next) :
    next.isRequired = tree.isRequired := by
  cases h <;> rfl

theorem types_eq (h : tree.Written path entry propagating next) : next.types = tree.types := by
  cases h <;> rfl

theorem regular (h : tree.Written path entry propagating next) (hr : tree.Regular)
    (hp : entry.Proper) (hn : entry = .null → tree.isRequired path = propagating) :
    next.Regular := by
  cases h with
  | dropped _ _ => exact hr
  | @placed changed swap =>
    refine ⟨swap.distinct hr.distinct hp.distinct, hr.root, fun other ho => ?_⟩
    change changed.at? other = some .null at ho
    change tree.isRequired other = false
    by_cases hb : path <+: other
    · obtain ⟨rest, rfl⟩ := hb
      rw [swap.at?_below] at ho
      obtain ⟨rfl, he⟩ := hp.eq_null ho
      rw [List.append_nil]
      exact hn he
    · by_cases ha : other <+: path
      · have hne : other ≠ path := fun he => hb (he ▸ List.prefix_refl _)
        exact absurd rfl (Slot.ne_null_of_prefix ho ha hne swap.symm.at?_eq)
      · rw [swap.at?_apart hb ha] at ho
        exact hr.nulls other ho
  | @collapsed point segment rest container changed there below admits swap null =>
    refine ⟨swap.distinct hr.distinct .null, hr.root, fun other ho => ?_⟩
    change changed.at? other = some .null at ho
    change tree.isRequired other = false
    by_cases hb : point <+: other
    · obtain ⟨rest, rfl⟩ := hb
      rw [swap.at?_below] at ho
      cases rest with
      | nil => rwa [List.append_nil]
      | cons segment rest => cases segment <;> cases ho
    · by_cases ha : other <+: point
      · have hne : other ≠ point := fun he => hb (he ▸ List.prefix_refl _)
        exact absurd rfl (Slot.ne_null_of_prefix ho ha hne swap.symm.at?_eq)
      · rw [swap.at?_apart hb ha] at ho
        exact hr.nulls other ho

theorem isOpen (h : tree.Written path entry propagating next) {other : Path}
    (ho : tree.data.Open other) (ha : path.Apart other) : next.data.Open other := by
  cases h with
  | dropped _ _ => exact ho
  | placed swap => exact ho.place swap ha
  | @collapsed point segment rest container changed there below admits swap null =>
    obtain ⟨hole, child, hc, -, -⟩ := Slot.at?_above (below ▸ there)
    obtain rfl : container = hole.fill child := Option.some.inj (swap.at?_eq.symm.trans hc)
    exact ho.collapse swap (Slot.fill_ne_pending hole child) (Slot.fill_ne_null hole child)

theorem child (h : tree.Written path entry false next) {segment : PathSegment}
    (hs : entry.slot.at? [segment] = some .pending) : next.data.Open (path ++ [segment]) := by
  cases h with
  | dropped _ dead => exact .inr (dead.append _)
  | placed swap => exact Slot.Open.child swap hs

end Written

theorem Regular.record (hr : tree.Regular) (ho : tree.data.Open path) (hne : path ≠ [])
    (type : TypeRef) : (tree.record path type).Regular := by
  refine ⟨hr.distinct, ?_, fun other hn => ?_⟩
  · rw [isRequired_record, if_neg hne]
    exact hr.root
  · rw [isRequired_record, if_neg]
    · exact hr.nulls other hn
    · rintro rfl
      exact nomatch ho.eq_pending hn

/-- What the data come to once every pending place has come to its result. -/
def completed (tree : ResultTree) (results : Path → Completed) : Completed :=
  tree.data.completed tree.isRequired results []

section Completed

variable {required : Path → Bool} {results results' : Path → Completed} {entry : Entry}

/-- Declaring a type does not change what the data come to: the place is still to be written. -/
theorem completed_record (hr : tree.Regular) (ho : tree.data.Open path) (type : TypeRef) :
    (tree.record path type).completed results = tree.completed results := by
  refine Slot.completed_congr hr.distinct fun rest found hf => ⟨fun _ => rfl, fun hne => ?_⟩
  rw [List.nil_append, isRequired_record, if_neg]
  rintro rfl
  exact hne (ho.eq_pending hf)

/-- Results at places that are not pending do not matter. -/
theorem completed_results (hr : tree.Regular)
    (h : ∀ path, tree.data.at? path = some .pending → results' path = results path) :
    tree.completed results' = tree.completed results := by
  refine Slot.completed_congr hr.distinct fun rest found hf => ⟨?_, fun _ => rfl⟩
  rintro rfl
  exact h rest hf

/-- Writing an entry does not change what the data come to if the entry comes to the result of its
place. -/
theorem Written.completed_eq (h : tree.Written path entry false next) (hr : tree.Regular)
    (hc : entry.slot.completed required results' path = results path)
    (ho : ∀ other, ¬ path <+: other →
      results other = results' other ∧ tree.isRequired other = required other) :
    next.data.completed required results' [] = tree.completed results := by
  cases h with
  | dropped _ dead =>
    refine (Slot.completed_congr hr.distinct fun rest found hf => ?_).symm
    have hn : ¬ path <+: rest := by
      rintro ⟨more, rfl⟩
      rw [(dead.append more).at?_eq_none] at hf
      cases hf
    exact ⟨fun _ => (ho _ hn).1, fun _ => (ho _ hn).2⟩
  | placed swap => exact swap.completed hr.distinct hc ho

/-- A collapse does not change what the data come to if the result of the place propagates. -/
theorem Written.completed_collapse (h : tree.Written path entry true next) (hr : tree.Regular)
    (hn : next.Regular) (hp : results path = .propagating)
    (ho : ∀ other, other ≠ path → results' other = results other) :
    next.completed results' = tree.completed results := by
  cases h with
  | dropped _ dead =>
    refine completed_results hr fun other hother => ho other ?_
    rintro rfl
    rw [dead.at?_eq_none] at hother
    cases hother
  | @collapsed point segment rest container changed there below admits swap null =>
    have hswap : changed.completed tree.isRequired results [] = tree.completed results :=
      swap.completed hr.distinct (null results hp).symm fun _ _ => ⟨rfl, rfl⟩
    refine (completed_results hn fun other hother => ho other ?_).trans hswap
    rintro rfl
    change changed.at? other = some .pending at hother
    rw [below, swap.at?_below] at hother
    cases segment <;> cases hother

end Completed

end ResultTree

end GraphQL
