import GraphQL.Proofs.Collapse

/-!
# Writes that commute

Every write acts on one place of the data: a plain one on the place at its path, a propagating one
on the container that takes the null. Whatever it does there, it leaves a null a null. Two writes at
paths neither of which leads through the other act on places apart from each other, unless one of
them collapses a container that holds the place of the other: then that place is lost in either
order. So writes at such paths come to the same tree in every order.
-/

namespace GraphQL

namespace Members

variable {α : Type}

/-- Changes the value under a name, if the name is present. -/
def modify (name : String) (change : α → α) : Members α → Members α
  | [] => []
  | (key, value) :: rest =>
    if key = name then (key, change value) :: rest else (key, value) :: modify name change rest

theorem update?_getD (name : String) (change : α → Option α) (members : Members α) :
    (update? name change members).getD members =
      members.modify name fun value => (change value).getD value := by
  induction members with
  | nil => rfl
  | cons member rest ih =>
    obtain ⟨key, value⟩ := member
    by_cases hk : key = name
    · simp only [update?, modify, hk, if_true]
      cases change value <;> rfl
    · simp only [update?, modify, hk, if_false, ← ih]
      cases update? name change rest <;> rfl

theorem modify_modify (name : String) (first second : α → α) (members : Members α) :
    (members.modify name first).modify name second = members.modify name (second ∘ first) := by
  induction members with
  | nil => rfl
  | cons member rest ih =>
    obtain ⟨key, value⟩ := member
    by_cases hk : key = name <;> simp [modify, hk, ih]

theorem modify_comm {a b : String} (h : a ≠ b) (first second : α → α) (members : Members α) :
    (members.modify a first).modify b second = (members.modify b second).modify a first := by
  induction members with
  | nil => rfl
  | cons member rest ih =>
    obtain ⟨key, value⟩ := member
    by_cases ha : key = a
    · subst ha
      simp [modify, h]
    · by_cases hb : key = b <;> simp [modify, ha, hb, ih, h.symm]

end Members

namespace Slot

theorem updateItem?_getD (change : Slot → Option Slot) (place : Nat) (items : List Slot) :
    (updateItem? change place items).getD items =
      items.modify place fun item => (change item).getD item := by
  induction items generalizing place with
  | nil => cases place <;> rfl
  | cons item rest ih =>
    cases place with
    | zero =>
      simp only [updateItem?, List.modify_zero_cons]
      cases change item <;> rfl
    | succ place =>
      simp only [updateItem?, List.modify_succ_cons, ← ih]
      cases updateItem? change place rest <;> rfl

/-- Changes the place at a path, if it is there. -/
def modify (change : Slot → Slot) : Path → Slot → Slot
  | [], slot => change slot
  | .key name :: path, object members => .object (Members.modify name (modify change path) members)
  | .index place :: path, list items => .list (items.modify place (modify change path))
  | _ :: _, slot => slot

theorem update?_getD (change : Slot → Option Slot) (path : Path) (slot : Slot) :
    (slot.update? change path).getD slot =
      slot.modify (fun slot => (change slot).getD slot) path := by
  induction path generalizing slot with
  | nil => rfl
  | cons segment path ih =>
    have hbelow : (fun child : Slot => (child.update? change path).getD child) =
        modify (fun slot => (change slot).getD slot) path := funext ih
    cases slot with
    | pending | null | leaf => cases segment <;> rfl
    | object members =>
      cases segment with
      | index place => rfl
      | key name =>
        simp only [update?, modify, ← hbelow, ← Members.update?_getD]
        cases Members.update? name (update? change path) members <;> rfl
    | list items =>
      cases segment with
      | key name => rfl
      | index place =>
        simp only [update?, modify, ← hbelow, ← updateItem?_getD]
        cases updateItem? (update? change path) place items <;> rfl

/-- What is changed below a place is changed as a part of it. -/
theorem modify_append (change : Slot → Slot) (path rest : Path) (slot : Slot) :
    slot.modify change (path ++ rest) = slot.modify (modify change rest) path := by
  induction path generalizing slot with
  | nil => rfl
  | cons segment path ih =>
    have hbelow : modify change (path ++ rest) = modify (modify change rest) path := funext ih
    cases slot <;> cases segment <;> simp only [List.cons_append, modify, hbelow]

theorem modify_modify (first second : Slot → Slot) (path : Path) (slot : Slot) :
    (slot.modify first path).modify second path = slot.modify (second ∘ first) path := by
  induction path generalizing slot with
  | nil => rfl
  | cons segment path ih =>
    have hbelow : modify second path ∘ modify first path = modify (second ∘ first) path :=
      funext ih
    cases slot <;> cases segment <;>
      simp only [modify, Members.modify_modify, List.modify_modify_eq, hbelow]

theorem modify_comm {a b : Path} (h : a.Apart b) (first second : Slot → Slot) (slot : Slot) :
    (slot.modify first a).modify second b = (slot.modify second b).modify first a := by
  induction a generalizing b slot with
  | nil => exact absurd List.nil_prefix h.1
  | cons here a ih =>
    cases b with
    | nil => exact absurd List.nil_prefix h.2
    | cons there b =>
      by_cases hs : here = there
      · subst hs
        have hab : Path.Apart a b := ⟨fun hp => h.1 (List.cons_prefix_cons.mpr ⟨rfl, hp⟩),
          fun hp => h.2 (List.cons_prefix_cons.mpr ⟨rfl, hp⟩)⟩
        have hbelow : modify second b ∘ modify first a = modify first a ∘ modify second b :=
          funext (ih hab)
        cases slot <;> cases here <;>
          simp only [modify, Members.modify_modify, List.modify_modify_eq, hbelow]
      · cases slot <;> cases here <;> cases there <;> try rfl
        case object.key.key members name other =>
          have hn : name ≠ other := fun he => hs (by rw [he])
          simp only [modify, Members.modify_comm hn]
        case list.index.index items place other =>
          have hn : place ≠ other := fun he => hs (by rw [he])
          simp only [modify, List.modify_modify_ne _ _ _ hn]

/-- Nothing is to be changed below a null. -/
theorem modify_null {change : Slot → Slot} (h : change .null = .null) (path : Path) :
    Slot.null.modify change path = .null := by
  cases path with
  | nil => exact h
  | cons segment path => cases segment <;> rfl

end Slot

namespace ResultTree

/-- A write that may be performed on a tree. -/
structure Write where
  path : Path
  entry : Entry
  /-- True if a null takes the place of a container instead of the entry. -/
  propagating : Bool

/-- The tree after a write. -/
def perform (tree : ResultTree) (write : Write) : ResultTree :=
  tree.write write.path write.entry write.propagating

namespace Write

/-- The place that a write acts on. -/
def target (tree : ResultTree) (write : Write) : Path :=
  if write.propagating then tree.collapsePoint write.path else write.path

/-- What a write makes of the place that it acts on. -/
def landed (write : Write) (slot : Slot) : Slot :=
  if write.propagating then .null else if slot.isPending then write.entry.slot else slot

theorem landed_null (write : Write) : write.landed .null = .null := by
  unfold landed
  split <;> rfl

theorem target_prefix (tree : ResultTree) (write : Write) : write.target tree <+: write.path := by
  unfold target
  split
  · unfold collapsePoint
    cases hf : (containers write.path).find? fun container =>
        container.isEmpty || !tree.isRequired container with
    | none => exact List.nil_prefix
    | some container =>
      obtain ⟨length, -, rfl⟩ := List.mem_map.mp (List.mem_of_find?_eq_some hf)
      exact List.take_prefix length write.path
  · exact List.prefix_refl _

/-- A write that acts on a place that holds another path collapses it. -/
theorem propagating_of_prefix {tree : ResultTree} {write : Write} {path : Path}
    (h : write.path.Apart path) (hp : write.target tree <+: path) : write.propagating = true := by
  by_contra hn
  rw [target, if_neg hn] at hp
  exact h.1 hp

end Write

theorem perform_eq (tree : ResultTree) (write : Write) :
    tree.perform write =
      { tree with data := tree.data.modify write.landed (write.target tree) } := by
  have hgetD : ∀ changed : Option Slot,
      (changed.map fun data => { tree with data }).getD tree =
        { tree with data := changed.getD tree.data } := by
    intro changed
    cases changed <;> rfl
  unfold perform ResultTree.write write? Write.target
  by_cases hp : write.propagating = true
  · have hnull : write.landed = fun _ => .null := by
      funext slot
      simp only [Write.landed, hp, if_true]
    simp only [hp, if_true, hnull, collapse?]
    split
    · next hroot => rw [hroot]; rfl
    · rw [hgetD, Slot.update?_getD]
      congr 2
      funext slot
      cases slot <;> rfl
  · have hplain : write.landed = fun slot => if slot.isPending then write.entry.slot else slot := by
      funext slot
      simp only [Write.landed, hp]
      rfl
    simp only [hp, hplain, place?]
    rw [if_neg Bool.false_ne_true, if_neg Bool.false_ne_true, hgetD, Slot.update?_getD]
    congr 2
    funext slot
    cases slot <;> rfl

variable {tree : ResultTree} {first second : Write}

theorem target_perform (tree : ResultTree) (first second : Write) :
    second.target (tree.perform first) = second.target tree := by
  rw [perform_eq]
  rfl

/-- A collapse takes with it what a write has changed below, and nothing lands there any more. -/
theorem modify_held {above below : Path} (hp : above <+: below) (hf : first.propagating = true)
    (slot : Slot) :
    (slot.modify first.landed above).modify second.landed below =
      (slot.modify second.landed below).modify first.landed above := by
  obtain ⟨rest, rfl⟩ := hp
  rw [Slot.modify_append, Slot.modify_append, Slot.modify_modify, Slot.modify_modify]
  congr 1
  funext place
  simp only [Function.comp_apply, Write.landed, hf, if_true]
  exact Slot.modify_null second.landed_null rest

theorem perform_comm (tree : ResultTree) (h : first.path.Apart second.path) :
    (tree.perform first).perform second = (tree.perform second).perform first := by
  rw [perform_eq (tree.perform first), perform_eq (tree.perform second), target_perform,
    target_perform, perform_eq, perform_eq]
  simp only [mk.injEq, and_self, and_true]
  by_cases hf : first.target tree <+: second.target tree
  · have hc := Write.propagating_of_prefix h (hf.trans (second.target_prefix tree))
    exact modify_held hf hc tree.data
  by_cases hs : second.target tree <+: first.target tree
  · have hc := Write.propagating_of_prefix h.symm (hs.trans (first.target_prefix tree))
    exact (modify_held hs hc tree.data).symm
  exact Slot.modify_comm ⟨hf, hs⟩ _ _ tree.data

/-- Writes at paths that are pairwise apart come to the same tree in every order. -/
theorem foldl_perform_perm {writes permuted : List Write} (hp : writes.Perm permuted)
    (h : writes.Pairwise fun first second => first.path.Apart second.path) (tree : ResultTree) :
    writes.foldl perform tree = permuted.foldl perform tree := by
  induction hp generalizing tree with
  | nil => rfl
  | cons write _ ih => exact ih (List.pairwise_cons.mp h).2 (tree.perform write)
  | swap first second rest =>
    have ha := (List.pairwise_cons.mp h).1 first List.mem_cons_self
    simp only [List.foldl_cons, perform_comm tree ha]
  | trans hp _ ih ih' =>
    rw [ih h, ih' (hp.pairwise h fun ha => ha.symm)]

/-- Two writes at paths neither of which leads through the other leave the same data and the same
places alive in either order, and any number of such writes come to the same tree in every
order. -/
theorem apart_writes_commute (tree : ResultTree) :
    (∀ (first second : Path) (entry other : Entry) (propagating collapsing : Bool),
      ¬ first <+: second → ¬ second <+: first →
        ((tree.write first entry propagating).write second other collapsing).data =
          ((tree.write second other collapsing).write first entry propagating).data ∧
        ∀ path, ((tree.write first entry propagating).write second other collapsing).isLive path =
          ((tree.write second other collapsing).write first entry propagating).isLive path) ∧
    ∀ writes permuted : List Write, writes.Perm permuted →
      (writes.Pairwise fun first second => first.path.Apart second.path) →
        writes.foldl perform tree = permuted.foldl perform tree := by
  constructor
  · intro first second entry other propagating collapsing hf hs
    let w : Write := ⟨first, entry, propagating⟩
    let v : Write := ⟨second, other, collapsing⟩
    have h : (tree.perform w).perform v = (tree.perform v).perform w :=
      perform_comm tree ⟨hf, hs⟩
    exact ⟨congrArg ResultTree.data h, fun path => congrArg (·.isLive path) h⟩
  · exact fun writes permuted hp ha => foldl_perform_perm hp ha tree

/-- A user whose name is still to come and may not be null, beside a count. -/
def awaited : ResultTree where
  data := .object [("user", .object [("name", .pending), ("id", .pending)]), ("count", .pending)]
  types := [([.key "user", .key "name"], .nonNull (.late "String")),
    ([.key "user", .key "id"], .late "ID"), ([.key "user"], .late "User")]

/-- The name is null, which takes the user; the user has a number; there is a count. -/
def settled : List Write :=
  [⟨[.key "user", .key "name"], .null, true⟩,
    ⟨[.key "user", .key "id"], .leaf (.str "7"), false⟩, ⟨[.key "count"], .leaf (.str "1"), false⟩]

/-- A number below a collapsed user is lost whether it comes before the collapse or after it. -/
theorem number_of_lost_user :
    ((awaited.write [.key "user", .key "name"] .null true).write [.key "user", .key "id"]
        (.leaf (.str "7")) false).data =
      ((awaited.write [.key "user", .key "id"] (.leaf (.str "7")) false).write
        [.key "user", .key "name"] .null true).data ∧
    settled.foldl perform awaited = settled.reverse.foldl perform awaited ∧
    (settled.foldl perform awaited).data =
      .object [("user", .null), ("count", .leaf (.str "1"))] :=
  ⟨((apart_writes_commute awaited).1 _ _ _ _ _ _ (by decide) (by decide)).1,
    (apart_writes_commute awaited).2 settled settled.reverse settled.reverse_perm.symm
      (by simp only [settled, Path.Apart]; decide), rfl⟩

end ResultTree

end GraphQL
