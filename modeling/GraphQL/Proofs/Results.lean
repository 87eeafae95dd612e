import GraphQL.Proofs.Ownership

/-!
# Results

What pieces of work come to, place by place, and how what a step leaves to do contributes to it.
`Joins` says that the results of the work a step leaves amount to the results of the work that took
it: the data come to the same with either of them, whatever the other pieces of work come to.
-/

namespace GraphQL

/-- What places come to, given whether they are required not to be null. -/
abbrev Results := List (Path × (Bool → Completed))

namespace Results

def paths (results : Results) : List Path := results.map Prod.fst

/-- What a place comes to; a place without a result is absent. -/
def get (required : Path → Bool) : Results → Path → Completed
  | [], _ => .absent
  | (own, result) :: rest, path =>
    if own = path then result (required path) else get required rest path

/-- Results that are the same whether or not the places are required. -/
def fixed (paths : List Path) (completed : List Completed) : Results :=
  paths.zipWith (fun path completed => (path, fun _ => completed)) completed

variable {required required' : Path → Bool} {left own new right : Results} {path : Path}

@[simp] theorem paths_append (a b : Results) : paths (a ++ b) = paths a ++ paths b := by
  simp [paths]
@[simp] theorem paths_nil : paths [] = [] := rfl
@[simp] theorem paths_cons (entry : Path × (Bool → Completed)) (rest : Results) :
    paths (entry :: rest) = entry.1 :: paths rest := rfl

theorem paths_fixed {paths : List Path} {completed : List Completed}
    (h : completed.length = paths.length) : (fixed paths completed).paths = paths := by
  induction paths generalizing completed with
  | nil => rfl
  | cons path rest ih =>
    cases completed with
    | nil => cases h
    | cons first others => exact congrArg (path :: ·) (ih (Nat.succ.inj h))

theorem fixed_append {paths others : List Path} {completed more : List Completed}
    (h : completed.length = paths.length) :
    fixed (paths ++ others) (completed ++ more) = fixed paths completed ++ fixed others more :=
  List.zipWith_append h.symm

theorem get_of_not_mem (h : path ∉ own.paths) : get required own path = .absent := by
  induction own with
  | nil => rfl
  | cons entry rest ih =>
    simp only [paths_cons, List.mem_cons, not_or] at h
    rw [get, if_neg (Ne.symm h.1), ih h.2]

theorem get_append (a b : Results) (path : Path) :
    get required (a ++ b) path =
      if path ∈ a.paths then get required a path else get required b path := by
  induction a with
  | nil => simp
  | cons entry rest ih =>
    by_cases he : entry.1 = path
    · simp [get, he]
    · simp only [List.cons_append, get, he, if_false, ih, paths_cons, List.mem_cons,
        Ne.symm he, false_or]

/-- A place that comes to something neither here nor there comes to what it does elsewhere. -/
theorem get_middle_other (ho : path ∉ own.paths) (hn : path ∉ new.paths) :
    get required (left ++ own ++ right) path = get required (left ++ new ++ right) path := by
  by_cases hl : path ∈ left.paths
  · simp [get_append, hl]
  · simp [get_append, hl, ho, hn]

theorem get_middle (hl : path ∉ left.paths) (ho : path ∈ own.paths) :
    get required (left ++ own ++ right) path = get required own path := by
  simp [get_append, hl, ho]

theorem get_required (h : required path = required' path) (results : Results) :
    get required results path = get required' results path := by
  induction results with
  | nil => rfl
  | cons entry rest ih => simp only [get, h, ih]

/-- The results of distinct places, read one after another. -/
theorem map_get_fixed {paths : List Path} (hn : paths.Nodup) {completed : List Completed}
    (h : completed.length = paths.length) :
    paths.map (get required (fixed paths completed)) = completed := by
  induction paths generalizing completed with
  | nil => exact (List.length_eq_zero_iff.mp h).symm
  | cons path rest ih =>
    cases completed with
    | nil => cases h
    | cons first others =>
      have hrest := ih (List.nodup_cons.mp hn).2 (Nat.succ.inj h)
      rw [List.map_cons]
      congr 1
      · simp [fixed, get]
      · rw [← hrest]
        refine List.map_congr_left fun other ho => ?_
        have hne : path ≠ other := fun he => (List.nodup_cons.mp hn).1 (he ▸ ho)
        rw [hrest]
        simp [fixed, get, hne]

end Results

namespace Slot

variable {required : Path → Bool} {results : Path → Completed}

theorem completedItems_replicate (path : Path) (place length : Nat) :
    completedItems required results path place (List.replicate length .pending) =
      (List.range length).map fun i => results (path.index (place + i)) := by
  induction length generalizing place with
  | zero => rfl
  | succ length ih =>
    rw [List.replicate_succ, completedItems, ih, List.range_succ_eq_map, List.map_cons,
      List.map_map]
    congr 1
    refine List.map_congr_left fun i _ => ?_
    rw [Function.comp_apply, Nat.succ_eq_add_one, Nat.add_right_comm, Nat.add_assoc]

theorem completed_list (path : Path) (length : Nat) :
    (Entry.list length).slot.completed required results path =
      .list (required path) (((List.range length).map path.index).map results) := by
  simp only [Entry.slot, completed, completedItems_replicate, Nat.zero_add, List.map_map]
  rfl

theorem completed_object (path : Path) {keys : List String} (h : (Entry.object keys).Proper) :
    (Entry.object keys).slot.completed required results path =
      .object (required path) (keys.zip ((keys.map path.key).map results)) := by
  have hzip : keys.zip ((keys.map path.key).map results) =
      keys.map fun key => (key, results (path.key key)) := by
    induction keys with
    | nil => rfl
    | cons key rest ih => simpa using ih (List.nodup_cons.mp h).2
  rw [h.slot_object, completed, completedMembers_eq, List.map_map, hzip]
  rfl

end Slot

/-- What the data come to with results at the places that are pending. -/
def ResultTree.read (tree : ResultTree) (results : Results) : Completed :=
  tree.completed (results.get tree.isRequired)

/-- The results `new` at the tree `next` amount to the results `own` at the tree. -/
def Joins (tree next : ResultTree) (own new : Results) : Prop :=
  ∀ left right : Results,
    (∀ path ∈ left.paths ++ right.paths, ∀ top ∈ own.paths, top.Apart path) →
      next.read (left ++ new ++ right) = tree.read (left ++ own ++ right)

namespace Joins

variable {tree next written : ResultTree} {own new : Results} {path : Path}

theorem of_alike (ha : tree.Alike next) (own : Results) : Joins tree next own own := by
  intro left right _
  unfold ResultTree.read
  rw [ResultTree.completed, ResultTree.completed, ha.data, ha.isRequired_eq]

/-- Declaring a type does not matter to a place whose result is fixed. -/
theorem of_record (hr : tree.Regular) (ho : tree.data.Open path) {type : TypeRef}
    (ha : (tree.record path type).Alike next) (hm : path ∈ own.paths)
    (hf : ∀ a b, own.get (fun _ => a) path = own.get (fun _ => b) path) :
    Joins tree next own own := by
  intro left right hapart
  unfold ResultTree.read
  have hget : (left ++ own ++ right).get next.isRequired =
      (left ++ own ++ right).get tree.isRequired := by
    funext other
    by_cases he : path = other
    · subst he
      have hl : path ∉ left.paths := fun hp =>
        (hapart path (List.mem_append_left _ hp) path hm).1 (List.prefix_refl _)
      rw [Results.get_middle hl hm, Results.get_middle hl hm]
      calc own.get next.isRequired path
        _ = own.get (fun _ => next.isRequired path) path := Results.get_required (by rfl) own
        _ = own.get (fun _ => tree.isRequired path) path := hf _ _
        _ = own.get tree.isRequired path := Results.get_required (by rfl) own
    · refine Results.get_required ?_ _
      rw [ha.isRequired_eq, ResultTree.isRequired_record, if_neg he]
  have hnext : ∀ results, next.completed results = (tree.record path type).completed results := by
    intro results
    rw [ResultTree.completed, ResultTree.completed, ha.data, ha.isRequired_eq]
  rw [hget, hnext, ResultTree.completed_record hr ho]

/-- Only what a place comes to as it is declared matters. -/
theorem of_eq (ha : tree.Alike next) {f g : Bool → Completed}
    (h : f (tree.isRequired path) = g (tree.isRequired path)) :
    Joins tree next [(path, f)] [(path, g)] := by
  intro left right _
  unfold ResultTree.read
  have hget : (left ++ [(path, g)] ++ right).get next.isRequired =
      (left ++ [(path, f)] ++ right).get tree.isRequired := by
    funext other
    rw [ha.isRequired_eq]
    by_cases he : path = other
    · subst he
      simp [Results.get_append, Results.get, h]
    · simp [Results.get_append, Results.get, he]
  rw [hget, ResultTree.completed, ResultTree.completed, ha.data, ha.isRequired_eq]

/-- A place that is absent needs no result. -/
theorem of_absent (ha : tree.Alike next) :
    Joins tree next [(path, fun _ => Completed.absent)] [] := by
  intro left right hapart
  unfold ResultTree.read
  have hget : (left ++ [] ++ right).get next.isRequired =
      (left ++ [(path, fun _ => Completed.absent)] ++ right).get tree.isRequired := by
    funext other
    rw [ha.isRequired_eq]
    by_cases he : path = other
    · subst he
      have hl : path ∉ left.paths := fun hp =>
        (hapart path (List.mem_append_left _ hp) path (by simp)).1 (List.prefix_refl _)
      have hr : path ∉ right.paths := fun hp =>
        (hapart path (List.mem_append_right _ hp) path (by simp)).1 (List.prefix_refl _)
      have hm : path ∉ (left ++ [] ++ right).paths := by simp [hl, hr]
      rw [Results.get_of_not_mem hm, Results.get_middle hl (by simp)]
      simp [Results.get]
    · exact Results.get_middle_other (by simp) (by simpa using Ne.symm he)
  rw [hget, ResultTree.completed, ResultTree.completed, ha.data, ha.isRequired_eq]

/-- What comes to a dead place does not matter. -/
theorem of_dead (hr : tree.Regular) (hd : tree.data.Dead path) (ha : tree.Alike next)
    (before after : Results) (result : Bool → Completed) :
    Joins tree next (before ++ (path, result) :: after) (before ++ after) := by
  intro left right _
  unfold ResultTree.read
  have hnext : ∀ results, next.completed results = tree.completed results := by
    intro results
    rw [ResultTree.completed, ResultTree.completed, ha.data, ha.isRequired_eq]
  rw [hnext]
  refine ResultTree.completed_results hr fun other ho => ?_
  have hne : path ≠ other := by
    rintro rfl
    rw [hd.at?_eq_none] at ho
    cases ho
  rw [ha.isRequired_eq]
  simp [Results.get_append, Results.get, hne]

/-- An entry that comes to the result of its place, given what is inside of it. -/
theorem of_written {entry : Entry} (hw : tree.Written path entry false written)
    (hr : tree.Regular) (hp : entry.Proper) (hd : next.data = written.data)
    (hreq : ∀ other, ¬ path <+: other → next.isRequired other = tree.isRequired other)
    (hnew : ∀ other ∈ new.paths, path <+: other) {result : Bool → Completed}
    (hc : entry.slot.completed next.isRequired (new.get next.isRequired) path =
      result (tree.isRequired path)) :
    Joins tree next [(path, result)] new := by
  intro left right hapart
  unfold ResultTree.read
  have hbelow : ∀ other, path <+: other → other ∉ left.paths ∧ other ∉ right.paths := by
    intro other ho
    exact ⟨fun hm => (hapart other (List.mem_append_left _ hm) path (by simp)).1 ho,
      fun hm => (hapart other (List.mem_append_right _ hm) path (by simp)).1 ho⟩
  have hl := (hbelow path (List.prefix_refl _)).1
  rw [ResultTree.completed, hd]
  refine hw.completed_eq hr ?_ fun other ho => ⟨?_, (hreq other ho).symm⟩
  · rw [Results.get_middle hl (by simp)]
    refine Eq.trans ?_ (hc.trans (by simp [Results.get]))
    refine Slot.completed_congr hp.distinct fun rest found _ => ⟨fun _ => ?_, fun _ => rfl⟩
    have hrest := hbelow (path ++ rest) (List.prefix_append _ _)
    by_cases hm : path ++ rest ∈ new.paths
    · exact Results.get_middle hrest.1 hm
    · have hn : path ++ rest ∉ (left ++ new ++ right).paths := by simp [hrest, hm]
      rw [Results.get_of_not_mem hm, Results.get_of_not_mem hn]
  · have hother : other ∉ new.paths := fun hm => ho (hnew other hm)
    have hne : other ≠ path := fun he => ho (he ▸ List.prefix_refl _)
    rw [Results.get_required (hreq other ho)]
    exact Results.get_middle_other (by simpa using hne) hother

/-- A null that ends a place, where it is admitted and where it is not. -/
theorem of_null (hw : tree.Written path .null (tree.isRequired path) written)
    (hr : tree.Regular) (hn : written.Regular) (ha : written.Alike next) :
    Joins tree next [(path, fun _ => .null (tree.isRequired path))] [] := by
  have hreq : next.isRequired = tree.isRequired := ha.isRequired_eq.trans hw.isRequired_eq
  generalize hb : tree.isRequired path = required at hw ⊢
  cases required with
  | false =>
    refine of_written hw hr trivial ha.data (fun other _ => by rw [hreq]) (by simp) ?_
    rfl
  | true =>
    intro left right hapart
    unfold ResultTree.read
    have hl : path ∉ left.paths := fun hp =>
      (hapart path (List.mem_append_left _ hp) path (by simp)).1 (List.prefix_refl _)
    have hnext : ∀ results, next.completed results = written.completed results := by
      intro results
      rw [ResultTree.completed, ResultTree.completed, ha.data, ha.isRequired_eq]
    rw [hnext]
    refine hw.completed_collapse hr hn ?_ fun other ho => ?_
    · rw [Results.get_middle hl (by simp)]
      simp [Results.get, Completed.null]
    · rw [hreq]
      exact Results.get_middle_other (by simp) (by simpa using ho)

theorem of_leaf {value : Json} (hw : tree.Written path (.leaf value) false written)
    (hr : tree.Regular) (ha : written.Alike next) :
    Joins tree next [(path, fun _ => .value value)] [] :=
  of_written hw hr trivial ha.data
    (fun other _ => by rw [ha.isRequired_eq, hw.isRequired_eq]) (by simp) rfl

theorem of_object {keys : List String} (hw : tree.Written path (.object keys) false written)
    (hr : tree.Regular) (hp : (Entry.object keys).Proper) (ha : written.Alike next)
    {completed : List Completed} (hl : completed.length = keys.length) :
    Joins tree next [(path, fun required => .object required (keys.zip completed))]
      (.fixed (keys.map path.key) completed) := by
  have hreq : next.isRequired = tree.isRequired := ha.isRequired_eq.trans hw.isRequired_eq
  have hlength : completed.length = (keys.map path.key).length := by simpa using hl
  have hn : (keys.map path.key).Nodup :=
    List.pairwise_map.mpr (hp.imp fun hne he => hne (by simpa [Path.key] using he))
  refine of_written hw hr hp ha.data (fun other _ => by rw [hreq]) (fun other hm => ?_) ?_
  · rw [Results.paths_fixed hlength] at hm
    obtain ⟨key, -, rfl⟩ := List.mem_map.mp hm
    exact List.prefix_append _ _
  · rw [Slot.completed_object path hp, Results.map_get_fixed hn hlength, hreq]

theorem of_list {length : Nat} (hw : tree.Written path (.list length) false written)
    (hr : tree.Regular) (hd : next.data = written.data)
    (hreq : ∀ other, ¬ path <+: other ∨ other = path →
      next.isRequired other = tree.isRequired other)
    {completed : List Completed} (hl : completed.length = length) :
    Joins tree next [(path, fun _ => .list (tree.isRequired path) completed)]
      (.fixed ((List.range length).map path.index) completed) := by
  have hlength : completed.length = ((List.range length).map path.index).length := by simpa using hl
  have hn : ((List.range length).map path.index).Nodup :=
    List.pairwise_map.mpr
      (List.nodup_range.imp fun hne he => hne (by simpa [Path.index] using he))
  refine of_written hw hr trivial hd (fun other ho => hreq other (.inl ho)) (fun other hm => ?_) ?_
  · rw [Results.paths_fixed hlength] at hm
    obtain ⟨place, -, rfl⟩ := List.mem_map.mp hm
    exact List.prefix_append _ _
  · rw [Slot.completed_list, Results.map_get_fixed hn hlength, hreq path (.inr rfl)]

end Joins

end GraphQL
