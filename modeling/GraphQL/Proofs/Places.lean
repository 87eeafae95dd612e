import GraphQL.Proofs.Reference

/-!
# Places

The places of the data and what a change at one of them does to the others. `Swap` relates the data
before and after the change of one place. `Slot.completed` reads the data as they will be once every
pending place has come to its result; it is what the steps of an execution preserve.
-/

namespace GraphQL

theorem Path.not_child_prefix (path : Path) (segment : PathSegment) :
    ¬ path ++ [segment] <+: path := by
  intro hp
  have := hp.length_le
  rw [List.length_append, List.length_singleton] at this
  omega

/-- Induction on the data: on the members of objects and on the items of lists. -/
@[induction_eliminator]
theorem Slot.nested {motive : Slot → Prop} (pending : motive .pending) (null : motive .null)
    (leaf : ∀ value, motive (.leaf value))
    (object : ∀ members, (∀ member ∈ members, motive member.2) → motive (.object members))
    (list : ∀ items, (∀ item ∈ items, motive item) → motive (.list items)) :
    ∀ slot, motive slot := by
  intro slot
  refine @Slot.rec motive (fun members => ∀ member ∈ members, motive member.2)
    (fun items => ∀ item ∈ items, motive item) (fun member => motive member.2)
    pending null leaf object list ?_ ?_ ?_ ?_ ?_ slot
  · exact fun member hm => nomatch hm
  · intro head tail hhead htail member hm
    rcases List.mem_cons.mp hm with rfl | hm
    · exact hhead
    · exact htail member hm
  · exact fun item hm => nomatch hm
  · intro head tail hhead htail item hm
    rcases List.mem_cons.mp hm with rfl | hm
    · exact hhead
    · exact htail item hm
  · exact fun name slot h => h

namespace Members

variable {α : Type}

theorem get?_eq_some {name : String} {members : Members α} {value : α}
    (h : get? name members = some value) :
    ∃ before after, members = before ++ (name, value) :: after ∧ name ∉ names before := by
  induction members with
  | nil => cases h
  | cons member rest ih =>
    obtain ⟨key, other⟩ := member
    by_cases hk : key = name
    · subst hk
      obtain rfl : other = value := by simpa [get?] using h
      exact ⟨[], rest, rfl, by simp [names]⟩
    · obtain ⟨before, after, rfl, hb⟩ := ih (by simpa [get?, hk] using h)
      refine ⟨(key, other) :: before, after, rfl, ?_⟩
      simpa [names, hk, Ne.symm hk] using hb

theorem mem_of_get? {name : String} {members : Members α} {value : α}
    (h : get? name members = some value) : (name, value) ∈ members := by
  obtain ⟨before, after, rfl, -⟩ := get?_eq_some h
  exact List.mem_append_right _ List.mem_cons_self

theorem get?_middle {name : String} {before after : Members α} {value : α}
    (h : name ∉ names before) : get? name (before ++ (name, value) :: after) = some value := by
  induction before with
  | nil => simp [get?]
  | cons member rest ih =>
    obtain ⟨key, other⟩ := member
    simp only [names, List.map_cons, List.mem_cons, not_or] at h
    simpa [get?, Ne.symm h.1] using ih h.2

theorem get?_other {name other : String} {before after : Members α} (h : other ≠ name)
    (value changed : α) :
    get? other (before ++ (name, value) :: after) =
      get? other (before ++ (name, changed) :: after) := by
  induction before with
  | nil => simp [get?, Ne.symm h]
  | cons member rest ih =>
    obtain ⟨key, own⟩ := member
    simp only [List.cons_append, get?, ih]

theorem update?_middle {name : String} {before after : Members α} {value : α}
    (change : α → Option α) (h : name ∉ names before) :
    update? name change (before ++ (name, value) :: after) =
      (change value).map fun changed => before ++ (name, changed) :: after := by
  induction before with
  | nil => simp [update?]
  | cons member rest ih =>
    obtain ⟨key, other⟩ := member
    simp only [names, List.map_cons, List.mem_cons, not_or] at h
    simp only [List.cons_append, update?, Ne.symm h.1, if_false, ih h.2, Option.map_map]
    rfl

theorem update?_of_get?_none {name : String} {members : Members α} (change : α → Option α)
    (h : get? name members = none) : update? name change members = none := by
  induction members with
  | nil => rfl
  | cons member rest ih =>
    obtain ⟨key, other⟩ := member
    by_cases hk : key = name
    · simp [get?, hk] at h
    · simpa [update?, hk] using ih (by simpa [get?, hk] using h)

theorem get?_of_mem {members : Members α} (hn : (names members).Nodup) {name : String} {value : α}
    (h : (name, value) ∈ members) : get? name members = some value := by
  obtain ⟨before, after, rfl⟩ := List.append_of_mem h
  apply get?_middle
  simp only [names, List.map_append, List.map_cons] at hn ⊢
  exact fun hm => (List.nodup_append.mp hn).2.2 _ hm _ List.mem_cons_self rfl

/-- No other member has the name of a member. -/
theorem ne_of_nodup {before after : Members α} {name : String} {value : α}
    (h : (names (before ++ (name, value) :: after)).Nodup) :
    (∀ member ∈ before, member.1 ≠ name) ∧ ∀ member ∈ after, member.1 ≠ name := by
  simp only [names, List.map_append, List.map_cons] at h
  rw [List.perm_middle.nodup_iff, List.nodup_cons, ← List.map_append] at h
  refine ⟨fun member hm he => h.1 ?_, fun member hm he => h.1 ?_⟩
  · exact he ▸ List.mem_map_of_mem (List.mem_append_left _ hm)
  · exact he ▸ List.mem_map_of_mem (List.mem_append_right _ hm)

theorem set_of_fresh {name : String} {value : α} {members : Members α} (h : name ∉ names members) :
    set name value members = members ++ [(name, value)] := by
  induction members with
  | nil => rfl
  | cons member rest ih =>
    obtain ⟨key, other⟩ := member
    simp only [names, List.map_cons, List.mem_cons, not_or] at h
    simp [set, Ne.symm h.1, ih h.2]

/-- Members set under distinct names are in the order in which they were set. -/
theorem ofList_of_nodup {pairs : List (String × α)} (h : (names pairs).Nodup) :
    ofList pairs = pairs := by
  have hfold : ∀ kept : Members α, (names (kept ++ pairs)).Nodup →
      pairs.foldl (fun members pair => set pair.1 pair.2 members) kept = kept ++ pairs := by
    clear h
    induction pairs with
    | nil => simp
    | cons pair rest ih =>
      intro kept hk
      have hf : pair.1 ∉ names kept := by
        simp only [names, List.map_append, List.map_cons] at hk ⊢
        exact fun hm => (List.nodup_append.mp hk).2.2 _ hm _ List.mem_cons_self rfl
      rw [List.foldl_cons, set_of_fresh hf, ih _ (by simpa using hk)]
      simp
  simpa [ofList] using hfold [] (by simpa using h)

end Members

namespace Completed

theorem members?_propagating {before after : List (String × Completed)} {name : String}
    {completed : Completed} (h : completed = propagating) :
    members? (before ++ (name, completed) :: after) = none := by
  subst h
  induction before with
  | nil => rfl
  | cons member rest ih =>
    obtain ⟨key, other⟩ := member
    cases other with
    | absent => simpa [members?] using ih
    | propagating => rfl
    | value data => simp [members?, ih]

theorem items?_propagating {before after : List Completed} {completed : Completed}
    (h : completed = propagating) : items? (before ++ completed :: after) = none := by
  subst h
  induction before with
  | nil => rfl
  | cons other rest ih =>
    cases other with
    | absent => simp [items?, ih]
    | propagating => rfl
    | value data => simp [items?, ih]

end Completed

namespace Slot

/-- An object or a list with one of its places left open. -/
inductive Hole where
  | member (before : List (String × Slot)) (name : String) (after : List (String × Slot))
    (fresh : name ∉ Members.names before)
  | item (before after : List Slot)

namespace Hole

def segment : Hole → PathSegment
  | member _ name _ _ => .key name
  | item before _ => .index before.length

def fill : Hole → Slot → Slot
  | member before name after _, slot => .object (before ++ (name, slot) :: after)
  | item before after, slot => .list (before ++ slot :: after)

end Hole

theorem at?_fill (hole : Hole) (slot : Slot) (path : Path) :
    (hole.fill slot).at? (hole.segment :: path) = slot.at? path := by
  cases hole with
  | member before name after fresh =>
    simp [Hole.fill, Hole.segment, at?, Members.get?_middle fresh]
  | item before after => simp [Hole.fill, Hole.segment, at?]

theorem at?_fill_other {hole : Hole} {segment : PathSegment} (h : segment ≠ hole.segment)
    (slot changed : Slot) (path : Path) :
    (hole.fill slot).at? (segment :: path) = (hole.fill changed).at? (segment :: path) := by
  cases hole with
  | member before name after fresh =>
    cases segment with
    | key other =>
      have hn : other ≠ name := fun he => h (by rw [he]; rfl)
      simp only [Hole.fill, at?]
      rw [Members.get?_other hn slot changed]
    | index place => rfl
  | item before after =>
    cases segment with
    | key other => rfl
    | index place =>
      have hn : place ≠ before.length := fun he => h (by rw [he]; rfl)
      simp only [Hole.fill, at?]
      rcases Nat.lt_or_gt_of_ne hn with hl | hg
      · rw [List.getElem?_append_left hl, List.getElem?_append_left hl]
      · obtain ⟨extra, rfl⟩ := Nat.exists_eq_add_of_lt hg
        simp [List.getElem?_append_right, Nat.add_assoc]

theorem updateItem?_middle (change : Slot → Option Slot) (before after : List Slot) (slot : Slot) :
    updateItem? change before.length (before ++ slot :: after) =
      (change slot).map fun changed => before ++ changed :: after := by
  induction before with
  | nil => rfl
  | cons item rest ih =>
    simp only [List.cons_append, List.length_cons, updateItem?, ih, Option.map_map]
    rfl

theorem updateItem?_of_none (change : Slot → Option Slot) {place : Nat} {items : List Slot}
    (h : items[place]? = none) : updateItem? change place items = none := by
  induction items generalizing place with
  | nil => cases place <;> rfl
  | cons item rest ih =>
    cases place with
    | zero => simp at h
    | succ place => simp [updateItem?, ih (by simpa using h)]

theorem update?_fill (change : Slot → Option Slot) (hole : Hole) (slot : Slot) (path : Path) :
    (hole.fill slot).update? change (hole.segment :: path) =
      (slot.update? change path).map hole.fill := by
  cases hole with
  | member before name after fresh =>
    simp only [Hole.fill, Hole.segment, update?, Members.update?_middle _ fresh, Option.map_map]
    rfl
  | item before after =>
    simp only [Hole.fill, Hole.segment, update?, updateItem?_middle, Option.map_map]
    rfl

/-- A place below another one is a place of one of its members or items. -/
theorem at?_cons {slot found : Slot} {segment : PathSegment} {path : Path}
    (h : slot.at? (segment :: path) = some found) :
    ∃ hole child, slot = Hole.fill hole child ∧ segment = hole.segment ∧
      child.at? path = some found := by
  cases slot with
  | pending | null | leaf => cases segment <;> cases h
  | object members =>
    cases segment with
    | index place => cases h
    | key name =>
      simp only [at?] at h
      obtain ⟨child, hg, hc⟩ := Option.bind_eq_some_iff.mp h
      obtain ⟨before, after, rfl, hb⟩ := Members.get?_eq_some hg
      exact ⟨.member before name after hb, child, rfl, rfl, hc⟩
  | list items =>
    cases segment with
    | key name => cases h
    | index place =>
      simp only [at?] at h
      obtain ⟨child, hg, hc⟩ := Option.bind_eq_some_iff.mp h
      obtain ⟨hl, rfl⟩ := List.getElem?_eq_some_iff.mp hg
      refine ⟨.item (items.take place) (items.drop (place + 1)), items[place], ?_, ?_, hc⟩
      · simp [Hole.fill]
      · simp [Hole.segment, Nat.min_eq_left (Nat.le_of_lt hl)]

theorem at?_append (slot : Slot) (path rest : Path) :
    slot.at? (path ++ rest) = (slot.at? path).bind (at? rest) := by
  induction path generalizing slot with
  | nil => rfl
  | cons segment path ih =>
    cases slot with
    | pending | null | leaf => cases segment <;> rfl
    | object members =>
      cases segment with
      | index place => rfl
      | key name =>
        simp only [List.cons_append, at?, Option.bind_assoc]
        congr 1
        exact funext fun child => ih child
    | list items =>
      cases segment with
      | key name => rfl
      | index place =>
        simp only [List.cons_append, at?, Option.bind_assoc]
        congr 1
        exact funext fun child => ih child

theorem update?_of_at?_none (change : Slot → Option Slot) {slot : Slot} {path : Path}
    (h : slot.at? path = none) : slot.update? change path = none := by
  induction path generalizing slot with
  | nil => cases h
  | cons segment path ih =>
    cases slot with
    | pending | null | leaf => cases segment <;> rfl
    | object members =>
      cases segment with
      | index place => rfl
      | key name =>
        cases hg : Members.get? name members with
        | none => simp [update?, Members.update?_of_get?_none _ hg]
        | some child =>
          obtain ⟨before, after, rfl, hb⟩ := Members.get?_eq_some hg
          have hc : child.at? path = none := by simpa [at?, hg] using h
          simp [update?, Members.update?_middle _ hb, ih hc]
    | list items =>
      cases segment with
      | key name => rfl
      | index place =>
        cases hg : items[place]? with
        | none => simp [update?, updateItem?_of_none _ hg]
        | some child =>
          have hat : (list items).at? [.index place] = some child := by simp [at?, hg]
          obtain ⟨hole, other, hs, hseg, -⟩ := at?_cons hat
          have hc : other.at? path = none := by
            rw [hs, hseg, at?_fill] at h
            exact h
          rw [hs, hseg, update?_fill, ih hc]
          rfl

/-- `Swap path old new slot changed`: `changed` is `slot` with the place at the path, which was
`old`, turned into `new`. -/
inductive Swap : Path → Slot → Slot → Slot → Slot → Prop where
  | here (old new : Slot) : Swap [] old new old new
  | inside {path : Path} {old new slot changed : Slot} (hole : Hole)
      (h : Swap path old new slot changed) :
      Swap (hole.segment :: path) old new (hole.fill slot) (hole.fill changed)

theorem exists_swap {slot old : Slot} {path : Path} (h : slot.at? path = some old) (new : Slot) :
    ∃ changed, Swap path old new slot changed := by
  induction path generalizing slot with
  | nil =>
    obtain rfl := Option.some.inj h
    exact ⟨new, .here slot new⟩
  | cons segment path ih =>
    obtain ⟨hole, child, rfl, rfl, hc⟩ := at?_cons h
    obtain ⟨changed, hs⟩ := ih hc
    exact ⟨hole.fill changed, hs.inside hole⟩

/-- No object in the data has two members of one name. -/
inductive Distinct : Slot → Prop where
  | pending : Distinct .pending
  | null : Distinct .null
  | leaf (value : Json) : Distinct (.leaf value)
  | object {members : List (String × Slot)} (names : (Members.names members).Nodup)
      (each : ∀ member ∈ members, Distinct member.2) : Distinct (.object members)
  | list {items : List Slot} (each : ∀ item ∈ items, Distinct item) : Distinct (.list items)

theorem Distinct.child {hole : Hole} {slot : Slot} (h : (hole.fill slot).Distinct) :
    slot.Distinct := by
  cases hole with
  | member before name after fresh =>
    cases h with
    | object _ each => exact each (name, slot) (by simp)
  | item before after =>
    cases h with
    | list each => exact each slot (by simp)

theorem Distinct.refill {hole : Hole} {slot changed : Slot} (h : (hole.fill slot).Distinct)
    (hc : changed.Distinct) : (hole.fill changed).Distinct := by
  cases hole with
  | member before name after fresh =>
    cases h with
    | object names each =>
      refine .object (by simpa [Members.names] using names) fun member hm => ?_
      rcases List.mem_append.mp hm with hb | ha
      · exact each member (List.mem_append_left _ hb)
      · rcases List.mem_cons.mp ha with rfl | ha
        · exact hc
        · exact each member (List.mem_append_right _ (List.mem_cons_of_mem _ ha))
  | item before after =>
    cases h with
    | list each =>
      refine .list fun item hm => ?_
      rcases List.mem_append.mp hm with hb | ha
      · exact each item (List.mem_append_left _ hb)
      · rcases List.mem_cons.mp ha with rfl | ha
        · exact hc
        · exact each item (List.mem_append_right _ (List.mem_cons_of_mem _ ha))

namespace Swap

variable {path : Path} {old new slot changed : Slot}

theorem at?_eq (h : Swap path old new slot changed) : slot.at? path = some old := by
  induction h with
  | here old new => rfl
  | inside hole _ ih => rw [at?_fill, ih]

theorem root (h : Swap [] old new slot changed) : slot = old ∧ changed = new := by
  generalize he : ([] : Path) = path at h
  cases h with
  | here old new => exact ⟨rfl, rfl⟩
  | inside hole _ => cases he

theorem symm (h : Swap path old new slot changed) : Swap path new old changed slot := by
  induction h with
  | here old new => exact .here new old
  | inside hole _ ih => exact ih.inside hole

theorem update? (h : Swap path old new slot changed) (change : Slot → Option Slot)
    (hc : change old = some new) : slot.update? change path = some changed := by
  induction h with
  | here old new => simpa [Slot.update?] using hc
  | inside hole _ ih => rw [update?_fill, ih hc]; rfl

theorem refused (h : Swap path old new slot changed) {change : Slot → Option Slot}
    (hc : change old = none) : slot.update? change path = none := by
  induction h with
  | here old new => simpa [Slot.update?] using hc
  | inside hole _ ih => rw [update?_fill, ih hc]; rfl

theorem at?_below (h : Swap path old new slot changed) (rest : Path) :
    changed.at? (path ++ rest) = new.at? rest := by
  rw [at?_append, h.symm.at?_eq, Option.bind_some]

theorem distinct (h : Swap path old new slot changed) (hs : slot.Distinct) (hn : new.Distinct) :
    changed.Distinct := by
  induction h with
  | here old new => exact hn
  | inside hole _ ih => exact hs.refill (ih hs.child hn)

/-- A place that neither holds the changed one nor is held by it stays as it is. -/
theorem at?_apart (h : Swap path old new slot changed) {other : Path} (hp : ¬ path <+: other)
    (ho : ¬ other <+: path) : changed.at? other = slot.at? other := by
  induction h generalizing other with
  | here old new => exact absurd List.nil_prefix hp
  | @inside path old new slot changed hole _ ih =>
    cases other with
    | nil => exact absurd List.nil_prefix ho
    | cons segment other =>
      by_cases hs : segment = hole.segment
      · subst hs
        rw [at?_fill, at?_fill]
        exact ih (fun hc => hp (List.cons_prefix_cons.mpr ⟨rfl, hc⟩))
          (fun hc => ho (List.cons_prefix_cons.mpr ⟨rfl, hc⟩))
      · exact at?_fill_other hs changed slot other

end Swap

theorem at?_above {slot found : Slot} {path rest : Path} {segment : PathSegment}
    (h : slot.at? (path ++ segment :: rest) = some found) :
    ∃ hole child, slot.at? path = some (Hole.fill hole child) ∧ segment = hole.segment ∧
      child.at? rest = some found := by
  rw [at?_append] at h
  obtain ⟨container, hc, hf⟩ := Option.bind_eq_some_iff.mp h
  obtain ⟨hole, child, rfl, hs, hr⟩ := at?_cons hf
  exact ⟨hole, child, hc, hs, hr⟩

theorem fill_ne_pending (hole : Hole) (slot : Slot) : hole.fill slot ≠ .pending := by
  cases hole <;> exact fun h => nomatch h

theorem fill_ne_null (hole : Hole) (slot : Slot) : hole.fill slot ≠ .null := by
  cases hole <;> exact fun h => nomatch h

mutual

/-- What the data come to once every pending place has come to its result. -/
def completed (required : Path → Bool) (results : Path → Completed) (path : Path) :
    Slot → Completed
  | pending => results path
  | null => .value .null
  | leaf value => .value value
  | object members => .object (required path) (completedMembers required results path members)
  | list items => .list (required path) (completedItems required results path 0 items)

def completedMembers (required : Path → Bool) (results : Path → Completed) (path : Path) :
    List (String × Slot) → List (String × Completed)
  | [] => []
  | (name, slot) :: rest =>
    (name, completed required results (path.key name) slot) ::
      completedMembers required results path rest

def completedItems (required : Path → Bool) (results : Path → Completed) (path : Path)
    (place : Nat) : List Slot → List Completed
  | [] => []
  | slot :: rest =>
    completed required results (path.index place) slot ::
      completedItems required results path (place + 1) rest

end

section Completed

variable {required required' : Path → Bool} {results results' : Path → Completed}

theorem completedMembers_eq (path : Path) (members : List (String × Slot)) :
    completedMembers required results path members =
      members.map fun member =>
        (member.1, completed required results (path.key member.1) member.2) := by
  induction members with
  | nil => rfl
  | cons member rest ih =>
    obtain ⟨name, slot⟩ := member
    rw [completedMembers, ih, List.map_cons]

theorem completedMembers_congr {path : Path} {members : List (String × Slot)}
    (h : ∀ member ∈ members, completed required results (path.key member.1) member.2 =
      completed required' results' (path.key member.1) member.2) :
    completedMembers required results path members =
      completedMembers required' results' path members := by
  rw [completedMembers_eq, completedMembers_eq]
  exact List.map_congr_left fun member hm => by rw [h member hm]

theorem completedItems_append (path : Path) (place : Nat) (before after : List Slot) :
    completedItems required results path place (before ++ after) =
      completedItems required results path place before ++
        completedItems required results path (place + before.length) after := by
  induction before generalizing place with
  | nil => rfl
  | cons slot rest ih =>
    simp only [List.cons_append, completedItems, ih, List.length_cons]
    rw [Nat.add_right_comm, Nat.add_assoc]

theorem completedItems_congr {path : Path} {place : Nat} {items : List Slot}
    (h : ∀ i, (hi : i < items.length) →
      completed required results (path.index (place + i)) items[i] =
        completed required' results' (path.index (place + i)) items[i]) :
    completedItems required results path place items =
      completedItems required' results' path place items := by
  induction items generalizing place with
  | nil => rfl
  | cons slot rest ih =>
    have hhead := h 0 (Nat.zero_lt_succ _)
    have htail : completedItems required results path (place + 1) rest =
        completedItems required' results' path (place + 1) rest := by
      refine ih fun i hi => ?_
      have := h (i + 1) (Nat.succ_lt_succ hi)
      simpa [Nat.add_assoc, Nat.add_comm 1 i] using this
    simp only [completedItems, htail]
    rw [show completed required results (path.index place) slot =
      completed required' results' (path.index place) slot from hhead]

/-- The data come to the same where the pending places have the same results and the others the same
declarations. -/
theorem completed_congr {slot : Slot} (hd : slot.Distinct) {path : Path}
    (h : ∀ rest found, slot.at? rest = some found →
      (found = .pending → results (path ++ rest) = results' (path ++ rest)) ∧
      (found ≠ .pending → required (path ++ rest) = required' (path ++ rest))) :
    slot.completed required results path = slot.completed required' results' path := by
  induction slot generalizing path with
  | pending =>
    have := (h [] .pending rfl).1 rfl
    simpa [completed] using this
  | null => rfl
  | leaf value => rfl
  | object members ih =>
    have hr := (h [] _ rfl).2 (fun he => nomatch he)
    rw [List.append_nil] at hr
    cases hd with
    | object names each =>
      simp only [completed, hr]
      congr 1
      refine completedMembers_congr fun member hm => ?_
      refine ih member hm (each member hm) fun rest found hf => ?_
      have := h (.key member.1 :: rest) found
        (by simpa [at?, Members.get?_of_mem names hm] using hf)
      simpa [Path.key] using this
  | list items ih =>
    have hr := (h [] _ rfl).2 (fun he => nomatch he)
    rw [List.append_nil] at hr
    cases hd with
    | list each =>
      simp only [completed, hr]
      congr 1
      apply completedItems_congr
      intro i hi
      have hm := List.getElem_mem hi
      apply ih _ hm (each _ hm)
      intro rest found hf
      have := h (.index i :: rest) found (by simpa [at?, hi] using hf)
      simpa [Path.index] using this

/-- What is exchanged inside of one child of a container does not matter to another. -/
theorem completed_sibling {path : Path} {segment own : PathSegment} (hs : segment ≠ own)
    (ho : ∀ other, ¬ path ++ [own] <+: other →
      results other = results' other ∧ required other = required' other)
    {sibling : Slot} (hd : sibling.Distinct) :
    sibling.completed required results (path ++ [segment]) =
      sibling.completed required' results' (path ++ [segment]) := by
  refine completed_congr hd fun rest found _ => ?_
  have hn : ¬ path ++ [own] <+: path ++ [segment] ++ rest := by
    intro hp
    rw [List.append_assoc, List.prefix_append_right_inj] at hp
    exact hs (List.cons_prefix_cons.mp hp).1.symm
  exact ⟨fun _ => (ho _ hn).1, fun _ => (ho _ hn).2⟩

theorem completedMembers_siblings {path : Path} {name : String} {members : List (String × Slot)}
    (hn : ∀ member ∈ members, member.1 ≠ name) (hd : ∀ member ∈ members, member.2.Distinct)
    (ho : ∀ other, ¬ path.key name <+: other →
      results other = results' other ∧ required other = required' other) :
    completedMembers required results path members =
      completedMembers required' results' path members :=
  completedMembers_congr fun member hm =>
    completed_sibling (fun he => hn member hm (PathSegment.key.inj he)) ho (hd member hm)

theorem completedItems_siblings {path : Path} {own place : Nat} {items : List Slot}
    (hp : place + items.length ≤ own ∨ own < place) (hd : ∀ item ∈ items, item.Distinct)
    (ho : ∀ other, ¬ path.index own <+: other →
      results other = results' other ∧ required other = required' other) :
    completedItems required results path place items =
      completedItems required' results' path place items := by
  refine completedItems_congr fun i hi => ?_
  refine completed_sibling (fun he => ?_) ho (hd _ (List.getElem_mem hi))
  have := PathSegment.index.inj he
  omega

/-- The other places of a container come to the same. -/
theorem completed_fill {hole : Hole} {slot changed : Slot} {path : Path}
    (hd : (hole.fill slot).Distinct)
    (hc : slot.completed required results (path ++ [hole.segment]) =
      changed.completed required' results' (path ++ [hole.segment]))
    (ho : ∀ other, ¬ path ++ [hole.segment] <+: other →
      results other = results' other ∧ required other = required' other) :
    (hole.fill slot).completed required results path =
      (hole.fill changed).completed required' results' path := by
  have hr : required path = required' path :=
    (ho path (path.not_child_prefix hole.segment)).2
  cases hole with
  | member before name after fresh =>
    cases hd with
    | object names each =>
      obtain ⟨hbefore, hafter⟩ := Members.ne_of_nodup names
      have hb := completedMembers_siblings hbefore
        (fun member hm => each member (List.mem_append_left _ hm)) ho
      have ha := completedMembers_siblings hafter
        (fun member hm => each member (List.mem_append_right _ (List.mem_cons_of_mem _ hm))) ho
      have hc' : slot.completed required results (path.key name) =
          changed.completed required' results' (path.key name) := hc
      simp only [completedMembers_eq] at hb ha
      simp only [Hole.fill, completed, completedMembers_eq, List.map_append, List.map_cons, hr, hb,
        ha, hc']
  | item before after =>
    cases hd with
    | list each =>
      have hb := completedItems_siblings (.inl (Nat.le_of_eq (Nat.zero_add before.length)))
        (fun item hm => each item (List.mem_append_left _ hm)) ho
      have ha := completedItems_siblings (.inr (Nat.lt_succ_self before.length))
        (fun item hm => each item (List.mem_append_right _ (List.mem_cons_of_mem _ hm))) ho
      have hc' : slot.completed required results (path.index before.length) =
          changed.completed required' results' (path.index before.length) := hc
      simp only [Hole.fill, completed, completedItems_append, completedItems, Nat.zero_add, hr, hb,
        ha, hc']

/-- A container with a propagating place becomes null, or propagates in turn. -/
theorem completed_fill_propagating {hole : Hole} {slot : Slot} {path : Path}
    (h : slot.completed required results (path ++ [hole.segment]) = .propagating) :
    (hole.fill slot).completed required results path = .null (required path) := by
  cases hole with
  | member before name after fresh =>
    have hm : Completed.members? (completedMembers required results path
        (before ++ (name, slot) :: after)) = none := by
      rw [completedMembers_eq, List.map_append, List.map_cons]
      exact Completed.members?_propagating h
    simp only [Hole.fill, completed, Completed.object, hm]
  | item before after =>
    have hm : Completed.items? (completedItems required results path 0
        (before ++ slot :: after)) = none := by
      rw [completedItems_append, completedItems, Nat.zero_add]
      exact Completed.items?_propagating h
    simp only [Hole.fill, completed, Completed.list, hm]

/-- The data come to the same after a change of a place, where the place comes to the same. -/
theorem Swap.completed {path : Path} {old new slot changed : Slot}
    (h : Swap path old new slot changed) (hd : slot.Distinct) {above : Path}
    (hc : new.completed required' results' (above ++ path) =
      old.completed required results (above ++ path))
    (ho : ∀ other, ¬ above ++ path <+: other →
      results other = results' other ∧ required other = required' other) :
    changed.completed required' results' above = slot.completed required results above := by
  induction h generalizing above with
  | here old new => simpa using hc
  | @inside path old new slot changed hole _ ih =>
    have ho' : ∀ other, ¬ above ++ [hole.segment] <+: other →
        results other = results' other ∧ required other = required' other := by
      intro other hn
      refine ho other fun hp => hn (List.IsPrefix.trans ?_ hp)
      exact ⟨path, by simp⟩
    refine (completed_fill hd (ih hd.child ?_ ?_).symm ho').symm
    · simpa using hc
    · simpa using ho

end Completed

end Slot

end GraphQL
