import GraphQL.Proofs.Commuting
import GraphQL.Proofs.Nulls

/-!
# Collapses are permanent and local

What may become of the data while types are recorded and values are written, in whatever order. A
place that is pending may be written, any place may become null, and nothing else happens to it: so
what has collapsed stays collapsed, and no write lands there any more. A write that propagates
changes nothing outside of the one container that takes the null.
-/

namespace GraphQL

namespace Members

variable {α : Type}

@[simp] theorem names_modify (name : String) (change : α → α) (members : Members α) :
    names (members.modify name change) = names members := by
  induction members with
  | nil => rfl
  | cons member rest ih =>
    obtain ⟨key, value⟩ := member
    by_cases hk : key = name
    · simp [modify, names, hk]
    · simpa [modify, names, hk] using ih

theorem get?_modify (name : String) (change : α → α) (members : Members α) :
    get? name (members.modify name change) = (get? name members).map change := by
  induction members with
  | nil => rfl
  | cons member rest ih =>
    obtain ⟨key, value⟩ := member
    by_cases hk : key = name <;> simp [modify, get?, hk, ih]

theorem get?_modify_other {name other : String} (h : name ≠ other) (change : α → α)
    (members : Members α) : get? other (members.modify name change) = get? other members := by
  induction members with
  | nil => rfl
  | cons member rest ih =>
    obtain ⟨key, value⟩ := member
    by_cases hk : key = name
    · simp [modify, get?, hk, h]
    · by_cases hother : key = other
      · simp [modify, get?, hother, h.symm]
      · simp [modify, get?, hk, hother, ih]

end Members

/-- Paths that go on differently after the same step are apart. -/
theorem Path.Apart.tail {segment : PathSegment} {a b : Path}
    (h : Path.Apart (segment :: a) (segment :: b)) : Path.Apart a b :=
  ⟨fun hp => h.1 (List.cons_prefix_cons.mpr ⟨rfl, hp⟩),
    fun hp => h.2 (List.cons_prefix_cons.mpr ⟨rfl, hp⟩)⟩

namespace Slot

theorem at?_modify (change : Slot → Slot) (path : Path) (slot : Slot) :
    (slot.modify change path).at? path = (slot.at? path).map change := by
  induction path generalizing slot with
  | nil => rfl
  | cons segment path ih =>
    cases slot with
    | pending | null | leaf => cases segment <;> rfl
    | object members =>
      cases segment with
      | index place => rfl
      | key name =>
        simp only [modify, at?, Members.get?_modify]
        cases Members.get? name members with
        | none => rfl
        | some child => exact ih child
    | list items =>
      cases segment with
      | key name => rfl
      | index place =>
        simp only [modify, at?, List.getElem?_modify_eq]
        cases items[place]? with
        | none => rfl
        | some child => exact ih child

/-- A change leaves the places apart from it alone. -/
theorem at?_modify_apart (change : Slot → Slot) {path other : Path} (h : path.Apart other)
    (slot : Slot) : (slot.modify change path).at? other = slot.at? other := by
  induction path generalizing other slot with
  | nil => exact absurd List.nil_prefix h.1
  | cons here path ih =>
    cases other with
    | nil => exact absurd List.nil_prefix h.2
    | cons there other =>
      by_cases hs : here = there
      · subst hs
        cases slot with
        | pending | null | leaf => cases here <;> rfl
        | object members =>
          cases here with
          | index place => rfl
          | key name =>
            simp only [modify, at?, Members.get?_modify]
            cases Members.get? name members with
            | none => rfl
            | some child => exact ih h.tail child
        | list items =>
          cases here with
          | key name => rfl
          | index place =>
            simp only [modify, at?, List.getElem?_modify_eq]
            cases items[place]? with
            | none => rfl
            | some child => exact ih h.tail child
      · cases slot <;> cases here <;> cases there <;> try rfl
        case object.key.key members name other =>
          have hn : name ≠ other := fun he => hs (by rw [he])
          simp only [modify, at?, Members.get?_modify_other hn]
        case list.index.index items place other =>
          have hn : place ≠ other := fun he => hs (by rw [he])
          simp only [modify, at?, List.getElem?_modify_ne _ _ hn]

/-- Nothing is changed at a place that is not there. -/
theorem modify_of_at?_none (change : Slot → Slot) {slot : Slot} {path : Path}
    (h : slot.at? path = none) : slot.modify change path = slot := by
  have hrefused := update?_getD (fun slot => some (change slot)) path slot
  rw [update?_of_at?_none _ h] at hrefused
  exact hrefused.symm

/-- What may become of a place: if it is pending it may be written, and it may become null;
otherwise it stays a leaf, an object with the same members or a list of the same length. -/
inductive Becomes : Slot → Slot → Prop where
  | written (new : Slot) : Becomes .pending new
  | nulled (old : Slot) : Becomes old .null
  | leaf (value : Json) : Becomes (.leaf value) (.leaf value)
  | object {members others : List (String × Slot)}
      (names : Members.names others = Members.names members) :
      Becomes (.object members) (.object others)
  | list {items others : List Slot} (length : others.length = items.length) :
      Becomes (.list items) (.list others)

namespace Becomes

variable {old new last : Slot}

theorem refl (slot : Slot) : slot.Becomes slot := by
  cases slot with
  | pending => exact .written _
  | null => exact .nulled _
  | leaf value => exact .leaf value
  | object members => exact .object rfl
  | list items => exact .list rfl

theorem trans (h : old.Becomes new) (k : new.Becomes last) : old.Becomes last := by
  cases h with
  | written => exact .written last
  | nulled =>
    cases k
    exact .nulled old
  | leaf => exact k
  | object names =>
    cases k with
    | nulled => exact .nulled _
    | object names' => exact .object (names'.trans names)
  | list length =>
    cases k with
    | nulled => exact .nulled _
    | list length' => exact .list (length'.trans length)

/-- What has become null stays null. -/
theorem eq_null (h : Slot.null.Becomes new) : new = .null := by
  cases h
  rfl

/-- A container stays what it is when something inside of it changes. -/
theorem modify (change : Slot → Slot) (segment : PathSegment) (path : Path) (slot : Slot) :
    slot.Becomes (slot.modify change (segment :: path)) := by
  cases slot with
  | pending => exact .written _
  | null => cases segment <;> exact .nulled _
  | leaf value => cases segment <;> exact .leaf value
  | object members =>
    cases segment with
    | key name => exact .object (Members.names_modify name _ members)
    | index place => exact .object rfl
  | list items =>
    cases segment with
    | key name => exact .list rfl
    | index place => exact .list (List.length_modify _ _ _)

end Becomes

/-- How the data may change: what is at a place is still there as what it may become, or a container
of it has become null. -/
def Evolves (slot changed : Slot) : Prop :=
  ∀ path old, slot.at? path = some old →
    (∃ new, changed.at? path = some new ∧ old.Becomes new) ∨ changed.Dead path

namespace Evolves

variable {slot changed last : Slot} {path : Path}

theorem refl (slot : Slot) : slot.Evolves slot := fun _ old h => .inl ⟨old, h, .refl old⟩

theorem dead (h : slot.Evolves changed) (hd : slot.Dead path) : changed.Dead path := by
  obtain ⟨above, segment, rest, rfl, hn⟩ := hd
  rcases h above .null hn with ⟨new, hnew, hb⟩ | hdead
  · exact ⟨above, segment, rest, rfl, hb.eq_null ▸ hnew⟩
  · exact hdead.append _

theorem trans (h : slot.Evolves changed) (k : changed.Evolves last) : slot.Evolves last := by
  intro path old hold
  rcases h path old hold with ⟨new, hnew, hb⟩ | hdead
  · rcases k path new hnew with ⟨final, hfinal, hf⟩ | hdead
    · exact .inl ⟨final, hfinal, hb.trans hf⟩
    · exact .inr hdead
  · exact .inr (k.dead hdead)

/-- A null stays, or what holds it becomes null. -/
theorem nulled (h : slot.Evolves changed) (hn : slot.at? path = some .null) :
    changed.Nulled path := by
  rcases h path .null hn with ⟨new, hnew, hb⟩ | ⟨above, segment, rest, rfl, hnull⟩
  · exact ⟨path, List.prefix_refl path, hb.eq_null ▸ hnew⟩
  · exact ⟨above, List.prefix_append above _, hnull⟩

end Evolves

/-- Nothing but a null is at a place that is null or that a null holds. -/
theorem Nulled.eq_null {slot found : Slot} {path : Path} (h : slot.Nulled path)
    (hf : slot.at? path = some found) : found = .null := by
  obtain ⟨above, hp, hn⟩ := h
  by_cases he : above = path
  · exact Option.some.inj (hf.symm.trans (he ▸ hn))
  · rw [(dead_of_null hn hp he).at?_eq_none] at hf
    cases hf

theorem Nulled.append {slot : Slot} {above path : Path} (h : slot.Nulled above)
    (hp : above <+: path) : slot.Nulled path := by
  obtain ⟨top, ht, hn⟩ := h
  exact ⟨top, ht.trans hp, hn⟩

/-- A change that writes only what is pending, or else puts a null, is one by which the data may
change. -/
theorem evolves_modify {change : Slot → Slot}
    (h : ∀ old, old = .pending ∨ change old = old ∨ change old = .null) (target : Path)
    (slot : Slot) : slot.Evolves (slot.modify change target) := by
  intro path old hold
  by_cases hb : target <+: path
  · -- what is at the path lies inside of the place that changes, or is that place
    obtain ⟨rest, rfl⟩ := hb
    rw [at?_append] at hold
    obtain ⟨own, hown, hinside⟩ := Option.bind_eq_some_iff.mp hold
    have hchanged : (slot.modify change target).at? target = some (change own) := by
      rw [at?_modify, hown, Option.map_some]
    cases rest with
    | nil =>
      obtain rfl := Option.some.inj hinside
      rw [List.append_nil]
      refine .inl ⟨change own, hchanged, ?_⟩
      rcases h own with rfl | he | hn
      · exact .written _
      · rw [he]
        exact .refl own
      · rw [hn]
        exact .nulled own
    | cons segment rest =>
      rcases h own with rfl | he | hn
      · cases segment <;> cases hinside
      · refine .inl ⟨old, ?_, .refl old⟩
        rw [at?_append, hchanged, he]
        exact hinside
      · exact .inr ⟨target, segment, rest, rfl, hn ▸ hchanged⟩
  · by_cases hp : path <+: target
    · obtain ⟨rest, rfl⟩ := hp
      cases rest with
      | nil => simp at hb
      | cons segment rest =>
        refine .inl ⟨old.modify change (segment :: rest), ?_, .modify change segment rest old⟩
        rw [modify_append, at?_modify, hold, Option.map_some]
    · refine .inl ⟨old, ?_, .refl old⟩
      rw [at?_modify_apart change ⟨hb, hp⟩, hold]

/-- A change inside of a place does not make it pending or written. -/
theorem isPending_modify (change : Slot → Slot) (segment : PathSegment) (path : Path)
    (slot : Slot) : (slot.modify change (segment :: path)).isPending = slot.isPending := by
  cases slot <;> cases segment <;> rfl

section Rendered

variable {members : Members Slot} {name other : String} {change : Slot → Slot}

/-- The other members of an object are rendered as before. -/
theorem get?_renderMembers_modify_other (h : name ≠ other) :
    Members.get? other (renderMembers (members.modify name change)) =
      Members.get? other (renderMembers members) := by
  induction members with
  | nil => rfl
  | cons member rest ih =>
    obtain ⟨key, slot⟩ := member
    by_cases hk : key = name
    · subst hk
      simp only [Members.modify, if_true, renderMembers]
      split <;> split <;> simp [Members.get?, h]
    · simp only [Members.modify, hk, if_false, renderMembers]
      split
      · exact ih
      · by_cases ho : key = other <;> simp [Members.get?, ho, ih]

/-- A member that changes inside is rendered as before wherever its change does not show. -/
theorem get?_renderMembers_modify_same {read : Json → Option Json}
    (hp : ∀ slot : Slot, (change slot).isPending = slot.isPending)
    (hr : ∀ slot : Slot, read (change slot).render = read slot.render) :
    (Members.get? name (renderMembers (members.modify name change))).bind read =
      (Members.get? name (renderMembers members)).bind read := by
  induction members with
  | nil => rfl
  | cons member rest ih =>
    obtain ⟨key, slot⟩ := member
    by_cases hk : key = name
    · subst hk
      simp only [Members.modify, if_true, renderMembers, hp]
      split
      · rfl
      · simp only [Members.get?, if_true, Option.bind_some, hr]
    · simp only [Members.modify, hk, if_false, renderMembers]
      split
      · exact ih
      · simp only [Members.get?, hk, if_false]
        exact ih

end Rendered

/-- What is apart from a change is rendered as before. -/
theorem render_modify_apart (change : Slot → Slot) {path other : Path} (h : path.Apart other)
    (slot : Slot) : (slot.modify change path).render.at? other = slot.render.at? other := by
  induction path generalizing other slot with
  | nil => exact absurd List.nil_prefix h.1
  | cons here path ih =>
    cases other with
    | nil => exact absurd List.nil_prefix h.2
    | cons there other =>
      by_cases hs : here = there
      · subst hs
        -- both paths lead on inside of the same member or item
        obtain ⟨segment, rest, rfl⟩ : ∃ segment rest, path = segment :: rest := by
          cases path with
          | nil => exact absurd List.nil_prefix h.tail.1
          | cons segment rest => exact ⟨segment, rest, rfl⟩
        cases slot with
        | pending | null | leaf => cases here <;> rfl
        | object members =>
          cases here with
          | index place => rfl
          | key name =>
            simp only [modify, render, Json.at?]
            exact get?_renderMembers_modify_same (isPending_modify change segment rest)
              (ih h.tail)
        | list items =>
          cases here with
          | key name => rfl
          | index place =>
            simp only [modify, render, Json.at?, renderItems_eq, List.getElem?_map,
              List.getElem?_modify_eq]
            cases items[place]? with
            | none => rfl
            | some child => exact ih h.tail child
      · cases slot <;> cases here <;> cases there <;> try rfl
        case object.key.key members name other =>
          have hn : name ≠ other := fun he => hs (by rw [he])
          simp only [modify, render, Json.at?, get?_renderMembers_modify_other hn]
        case list.index.index items place other =>
          have hn : place ≠ other := fun he => hs (by rw [he])
          simp only [modify, render, Json.at?, renderItems_eq, List.getElem?_map,
            List.getElem?_modify_ne _ _ hn]

end Slot

namespace ResultTree

/-- Something that happens to a tree: a value is written or a declared type recorded. -/
inductive Change where
  | write (write : Write)
  | record (path : Path) (type : TypeRef)

/-- The tree after a change. -/
def apply (tree : ResultTree) : Change → ResultTree
  | .write write => tree.perform write
  | .record path type => tree.record path type

theorem Write.landed_cases (write : Write) (old : Slot) :
    old = .pending ∨ write.landed old = old ∨ write.landed old = .null := by
  unfold Write.landed
  by_cases hp : write.propagating = true
  · exact .inr (.inr (if_pos hp))
  · rw [if_neg hp]
    cases old with
    | pending => exact .inl rfl
    | null | leaf | object | list => exact .inr (.inl rfl)

theorem evolves_apply (tree : ResultTree) (change : Change) :
    tree.data.Evolves (tree.apply change).data := by
  cases change with
  | write write =>
    rw [apply, perform_eq]
    exact Slot.evolves_modify write.landed_cases (write.target tree) tree.data
  | record path type => exact .refl tree.data

/-- The data change in no other way, however many types are recorded and values written. -/
theorem evolves_applyAll (tree : ResultTree) (changes : List Change) :
    tree.data.Evolves (changes.foldl apply tree).data := by
  induction changes generalizing tree with
  | nil => exact .refl tree.data
  | cons change rest ih => exact (tree.evolves_apply change).trans (ih (tree.apply change))

variable {tree : ResultTree} {path point : Path}

theorem isLive_of_nulled (h : tree.data.Nulled path) : tree.isLive path = false := by
  unfold isLive
  cases hf : tree.data.at? path with
  | none => rfl
  | some found =>
    obtain rfl := h.eq_null hf
    rfl

/-- No value is written where there is a null or below it. -/
theorem write?_of_nulled (h : tree.data.Nulled path) (entry : Entry) :
    tree.write? path entry false = none := by
  simp only [write?, place?, Bool.false_eq_true, if_false, Option.map_eq_none_iff]
  cases hf : tree.data.at? path with
  | none => exact Slot.update?_of_at?_none _ hf
  | some found =>
    obtain rfl := h.eq_null hf
    obtain ⟨changed, hs⟩ := Slot.exists_swap hf .null
    exact hs.refused rfl

/-- A container of the value at a path that may become null: not the root, and of a declared type,
if it has been recorded, that is not non-null. -/
structure Admits (tree : ResultTree) (path container : Path) : Prop where
  nonempty : container ≠ []
  above : container <+: path
  proper : container ≠ path
  nullable : ∀ type, tree.declaredType? container = some type → type.isNonNull = false

/-- The container that takes a null that propagates from a path: the nearest one that may become
null, or the root if there is none. -/
structure TakesNull (tree : ResultTree) (path point : Path) : Prop where
  admits : point = [] ∨ tree.Admits path point
  longest : ∀ container, tree.Admits path container → container.length ≤ point.length

theorem isRequired_eq_false :
    tree.isRequired path = false ↔
      ∀ type, tree.declaredType? path = some type → type.isNonNull = false := by
  unfold isRequired
  cases tree.declaredType? path <;> simp

theorem collapsePoint_admits (tree : ResultTree) (path : Path) :
    tree.collapsePoint path = [] ∨ tree.isRequired (tree.collapsePoint path) = false := by
  unfold collapsePoint
  cases hf : (containers path).find? fun container =>
      container.isEmpty || !tree.isRequired container with
  | none => exact .inl rfl
  | some container => simpa using List.find?_some hf

theorem takesNull_collapsePoint (tree : ResultTree) (path : Path) :
    tree.TakesNull path (tree.collapsePoint path) := by
  constructor
  · by_cases hn : tree.collapsePoint path = []
    · exact .inl hn
    · have hpath : path ≠ [] := by
        rintro rfl
        exact hn rfl
      obtain ⟨segment, rest, hp⟩ := tree.collapsePoint_above hpath
      refine .inr ⟨hn, ⟨_, hp.symm⟩, fun he => ?_, ?_⟩
      · have := congrArg List.length hp
        rw [List.length_append, he, List.length_cons] at this
        omega
      · exact isRequired_eq_false.mp ((tree.collapsePoint_admits path).resolve_left hn)
  · intro container h
    by_contra hlt
    have hpath : path ≠ [] := by
      rintro rfl
      exact h.nonempty (List.prefix_nil.mp h.above)
    obtain ⟨segment, rest, hp⟩ := tree.collapsePoint_above hpath
    have hpoint : tree.collapsePoint path <+: container :=
      List.prefix_of_prefix_length_le ⟨_, hp.symm⟩ h.above (by omega)
    have hne : container ≠ tree.collapsePoint path := fun he => hlt (he ▸ Nat.le_refl _)
    have hrequired := isRequired_below_collapsePoint hpoint hne h.above h.proper
    rw [isRequired_eq_false.mpr h.nullable] at hrequired
    cases hrequired

/-- A null that propagates is put in one place, and nothing else changes. -/
theorem data_propagate (tree : ResultTree) (path : Path) (entry : Entry) :
    (tree.write path entry true).data =
      tree.data.modify (fun _ => .null) (tree.collapsePoint path) :=
  congrArg ResultTree.data (tree.perform_eq ⟨path, entry, true⟩)

/-- **Collapses are permanent and local.** A place is written only while it is pending, may become
null at any time, and does not change otherwise. Below a null nothing is live, no value is written,
and the null stays, or a container of it becomes null as well. A write that does not land changes
nothing. A propagating write changes, if anything, the nearest container that may be null; whatever
is apart from it is rendered as before. -/
theorem collapse_permanent (tree : ResultTree) :
    (∀ changes : List Change, tree.data.Evolves (changes.foldl apply tree).data) ∧
    (∀ (changes : List Change) (path above : Path),
      above <+: path → tree.data.at? above = some .null →
        (changes.foldl apply tree).isLive path = false ∧
        (changes.foldl apply tree).data.Nulled above ∧
        (∀ slot, (changes.foldl apply tree).data.at? above = some slot → slot = .null) ∧
        ∀ (below : Path) (entry : Entry), path <+: below →
          (changes.foldl apply tree).write? below entry false = none ∧
          ((changes.foldl apply tree).write below entry false).data =
            (changes.foldl apply tree).data) ∧
    (∀ (path : Path) (entry : Entry) (propagating : Bool),
      tree.write? path entry propagating = none →
        (tree.write path entry propagating).data = tree.data) ∧
    ∀ (path : Path) (entry : Entry), ∃ point, tree.TakesNull path point ∧
      ((tree.write path entry true).data = tree.data ∨
        (tree.write path entry true).data.at? point = some .null) ∧
      ∀ other, point.Apart other →
        (tree.write path entry true).data.at? other = tree.data.at? other ∧
        (tree.write path entry true).data.render.at? other = tree.data.render.at? other := by
  have hrefused : ∀ (tree : ResultTree) (path : Path) (entry : Entry) (propagating : Bool),
      tree.write? path entry propagating = none →
        (tree.write path entry propagating).data = tree.data := by
    intro tree path entry propagating h
    rw [write, h, Option.getD_none]
  refine ⟨tree.evolves_applyAll, fun changes path above hp hn => ?_, hrefused tree,
    fun path entry => ?_⟩
  · have hnulled := (tree.evolves_applyAll changes).nulled hn
    refine ⟨isLive_of_nulled (hnulled.append hp), hnulled, fun slot hs => hnulled.eq_null hs,
      fun below entry hb => ?_⟩
    have hnone := write?_of_nulled (hnulled.append (hp.trans hb)) entry
    exact ⟨hnone, hrefused _ _ _ _ hnone⟩
  · refine ⟨tree.collapsePoint path, tree.takesNull_collapsePoint path, ?_, fun other ho => ?_⟩
    · rw [data_propagate]
      cases hf : tree.data.at? (tree.collapsePoint path) with
      | none => exact .inl (Slot.modify_of_at?_none _ hf)
      | some found =>
        right
        rw [Slot.at?_modify, hf, Option.map_some]
    · rw [data_propagate]
      exact ⟨Slot.at?_modify_apart _ ho _, Slot.render_modify_apart _ ho _⟩

/-- Once the user has collapsed, no other user is written in their place and their number is
lost. -/
theorem lost_user_stays :
    (settled.foldl perform awaited).data.at? [.key "user"] = some .null ∧
    ((settled.foldl perform awaited).perform ⟨[.key "user"], .object ["id"], false⟩).isLive
      [.key "user", .key "id"] = false ∧
    ((settled.foldl perform awaited).perform ⟨[.key "user"], .object ["id"], false⟩).write?
      [.key "user", .key "id"] (.leaf (.str "7")) false = none := by
  have hnull : (settled.foldl perform awaited).data.at? [.key "user"] = some .null := rfl
  obtain ⟨hlive, -, -, hwrites⟩ := (collapse_permanent (settled.foldl perform awaited)).2.1
    [.write ⟨[.key "user"], .object ["id"], false⟩] [.key "user", .key "id"] [.key "user"]
    (by decide) hnull
  exact ⟨hnull, hlive, (hwrites _ _ (List.prefix_refl _)).1⟩

end ResultTree

end GraphQL
