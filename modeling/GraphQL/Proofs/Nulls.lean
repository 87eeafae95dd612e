import GraphQL.Proofs.Chronicle

/-!
# Nulls

Where the nulls of a response come from. A null is written in its place, or is what a container has
collapsed to; then there is an error inside of it, and no place on the way down to the error admits
null. An error, in turn, is reported where there is a null in the data, at its place or above it.
-/

namespace GraphQL

/-- The value at a path in the data of a response. -/
def Json.at? : Path → Json → Option Json
  | [], data => some data
  | .key name :: path, obj members => (Members.get? name members).bind (at? path)
  | .index place :: path, arr items => items[place]?.bind (at? path)
  | _ :: _, _ => none

namespace Slot

/-- There is a null at a place or at one that holds it. -/
def Nulled (slot : Slot) (path : Path) : Prop := ∃ above, above <+: path ∧ slot.at? above = some .null

theorem renderItems_eq (items : List Slot) : renderItems items = items.map render := by
  induction items with
  | nil => rfl
  | cons item rest ih => rw [renderItems, ih, List.map_cons]

/-- A member is rendered under its name unless it is pending. -/
theorem get?_renderMembers {members : List (String × Slot)} (hn : (Members.names members).Nodup)
    (name : String) :
    Members.get? name (renderMembers members) =
      (Members.get? name members).bind fun slot =>
        if slot.isPending then none else some slot.render := by
  induction members with
  | nil => rfl
  | cons member rest ih =>
    obtain ⟨key, slot⟩ := member
    obtain ⟨hfresh, hrest⟩ := List.nodup_cons.mp hn
    by_cases hk : key = name
    · subst hk
      cases hp : slot.isPending with
      | false => simp [renderMembers, Members.get?, hp]
      | true =>
        have hnone : Members.get? key rest = none := by
          cases hg : Members.get? key rest with
          | none => rfl
          | some other =>
            obtain ⟨before, after, rfl, -⟩ := Members.get?_eq_some hg
            exact absurd (by simp) hfresh
        simp [renderMembers, Members.get?, hp, ih hrest, hnone]
    · cases hp : slot.isPending <;> simp [renderMembers, Members.get?, hp, hk, ih hrest]

theorem Distinct.member {members : List (String × Slot)} (h : (Slot.object members).Distinct)
    {name : String} {slot : Slot} (hg : Members.get? name members = some slot) : slot.Distinct := by
  obtain ⟨before, after, rfl, -⟩ := Members.get?_eq_some hg
  cases h with
  | object _ each => exact each (name, slot) (by simp)

theorem Distinct.item {items : List Slot} (h : (Slot.list items).Distinct) {place : Nat} {slot : Slot}
    (hg : items[place]? = some slot) : slot.Distinct := by
  cases h with
  | list each => exact each slot (List.mem_of_getElem? hg)

/-- What is there in the data is there in the response. -/
theorem render_at? {slot found : Slot} (hd : slot.Distinct) {path : Path}
    (hf : slot.at? path = some found) (hn : found ≠ .pending) :
    slot.render.at? path = some found.render := by
  induction path generalizing slot with
  | nil =>
    obtain rfl := Option.some.inj hf
    rfl
  | cons segment path ih =>
    -- a container on the way is not pending, as something is there inside of it
    have hpending : ∀ child : Slot, child.at? path = some found → child.isPending = false := by
      rintro (_ | _) hc
      · cases path with
        | nil => exact absurd (Option.some.inj hc).symm hn
        | cons segment path => cases segment <;> cases hc
      all_goals rfl
    cases slot with
    | pending | null | leaf => cases segment <;> cases hf
    | object members =>
      cases segment with
      | index place => cases hf
      | key name =>
        obtain ⟨child, hg, hc⟩ := Option.bind_eq_some_iff.mp hf
        have hnames : (Members.names members).Nodup := by
          cases hd with
          | object names _ => exact names
        simp only [render, Json.at?, get?_renderMembers hnames, hg, Option.bind_some,
          hpending child hc, Bool.false_eq_true, if_false]
        exact ih (hd.member hg) hc
    | list items =>
      cases segment with
      | key name => cases hf
      | index place =>
        obtain ⟨child, hg, hc⟩ := Option.bind_eq_some_iff.mp hf
        simp only [render, Json.at?, renderItems_eq, List.getElem?_map, hg, Option.map_some,
          Option.bind_some]
        exact ih (hd.item hg) hc

/-- What is there in the response is there in the data, or lies inside of a leaf. -/
theorem at?_render {slot : Slot} (hd : slot.Distinct) {path : Path} {data : Json}
    (hr : slot.render.at? path = some data) :
    (∃ found, slot.at? path = some found ∧ found.render = data) ∨
      ∃ above segment rest value, path = above ++ segment :: rest ∧
        slot.at? above = some (.leaf value) := by
  induction path generalizing slot with
  | nil => exact .inl ⟨slot, rfl, Option.some.inj hr⟩
  | cons segment path ih =>
    cases slot with
    | pending | null => cases segment <;> cases hr
    | leaf value => exact .inr ⟨[], segment, path, value, rfl, rfl⟩
    | object members =>
      cases segment with
      | index place => cases hr
      | key name =>
        have hnames : (Members.names members).Nodup := by
          cases hd with
          | object names _ => exact names
        simp only [render, Json.at?, get?_renderMembers hnames] at hr
        obtain ⟨rendered, hmember, hr⟩ := Option.bind_eq_some_iff.mp hr
        obtain ⟨child, hg, hc⟩ := Option.bind_eq_some_iff.mp hmember
        split at hc
        · cases hc
        · obtain rfl := Option.some.inj hc
          rcases ih (hd.member hg) hr with ⟨found, hf, hfr⟩ | ⟨above, next, rest, value, rfl, hl⟩
          · exact .inl ⟨found, by simp [at?, hg, hf], hfr⟩
          · exact .inr ⟨.key name :: above, next, rest, value, rfl, by simp [at?, hg, hl]⟩
    | list items =>
      cases segment with
      | key name => cases hr
      | index place =>
        simp only [render, Json.at?, renderItems_eq, List.getElem?_map] at hr
        obtain ⟨rendered, hitem, hr⟩ := Option.bind_eq_some_iff.mp hr
        obtain ⟨child, hg, rfl⟩ := Option.map_eq_some_iff.mp hitem
        rcases ih (hd.item hg) hr with ⟨found, hf, hfr⟩ | ⟨above, next, rest, value, rfl, hl⟩
        · exact .inl ⟨found, by simp [at?, hg, hf], hfr⟩
        · exact .inr ⟨.index place :: above, next, rest, value, rfl, by simp [at?, hg, hl]⟩

end Slot

namespace ResultTree

variable {tree next : ResultTree} {path place : Path} {entry : Entry} {propagating : Bool}

/-- What collapses holds the value that is null. -/
theorem collapsePoint_above (tree : ResultTree) (hne : path ≠ []) :
    ∃ segment rest, path = tree.collapsePoint path ++ segment :: rest := by
  induction path using List.reverseRecOn with
  | nil => exact absurd rfl hne
  | append_singleton path last ih =>
    rw [collapsePoint_append]
    split
    · exact ⟨last, [], rfl⟩
    · next hp =>
      obtain ⟨segment, rest, hpath⟩ := ih (not_or.mp hp).1
      exact ⟨segment, rest ++ [last], by rw [← List.cons_append, ← List.append_assoc, ← hpath]⟩

/-- No place between a null and what collapses with it admits null. -/
theorem isRequired_below_collapsePoint (hp : tree.collapsePoint path <+: place)
    (hne : place ≠ tree.collapsePoint path) (hpath : place <+: path) (hn : place ≠ path) :
    tree.isRequired place = true := by
  induction path using List.reverseRecOn with
  | nil => exact absurd (List.prefix_nil.mp hpath) hn
  | append_singleton path last ih =>
    have habove : place <+: path := (List.prefix_concat_iff.mp hpath).resolve_left hn
    rw [collapsePoint_append] at hp hne
    split at hp
    · next hadmits =>
      rw [if_pos hadmits] at hne
      exact absurd (List.IsPrefix.eq_of_length_le habove hp.length_le) hne
    · next hrequired =>
      rw [if_neg hrequired] at hne
      by_cases he : place = path
      · subst he
        simpa using (not_or.mp hrequired).2
      · exact ih hp hne habove he

/-- A write changes nothing but the data. -/
theorem write_eq (tree : ResultTree) (path : Path) (entry : Entry) (propagating : Bool) :
    ∃ data, tree.write path entry propagating = { tree with data } := by
  cases propagating with
  | false =>
    simp only [write, write?, place?, Bool.false_eq_true, if_false]
    cases Slot.update? _ path tree.data with
    | none => exact ⟨tree.data, rfl⟩
    | some data => exact ⟨data, rfl⟩
  | true =>
    simp only [write, write?, collapse?, if_true]
    cases tree.collapsePoint path with
    | nil => exact ⟨.null, rfl⟩
    | cons segment rest =>
      dsimp only
      cases Slot.update? _ (segment :: rest) tree.data with
      | none => exact ⟨tree.data, rfl⟩
      | some data => exact ⟨data, rfl⟩

/-- A propagating write turns at most one place into a null. -/
theorem null_of_collapse (hn : (tree.write path entry true).data.at? place = some .null) :
    tree.data.at? place = some .null ∨ place = tree.collapsePoint path := by
  simp only [write, write?, collapse?, if_true] at hn
  cases hpoint : tree.collapsePoint path with
  | nil =>
    rw [hpoint] at hn
    cases place with
    | nil => exact .inr rfl
    | cons segment rest => cases segment <;> cases hn
  | cons segment rest =>
    rw [hpoint] at hn
    dsimp only at hn
    generalize hwhole : segment :: rest = point at hn
    cases hf : tree.data.at? point with
    | none =>
      rw [Slot.update?_of_at?_none _ hf] at hn
      exact .inl hn
    | some found =>
      obtain ⟨changed, hs⟩ := Slot.exists_swap hf .null
      by_cases hfound : found.isNull = true
      · rw [hs.refused (by simp [hfound])] at hn
        exact .inl hn
      · rw [hs.update? _ (by simp [hfound])] at hn
        change changed.at? place = some .null at hn
        by_cases hb : point <+: place
        · obtain ⟨inside, rfl⟩ := hb
          rw [hs.at?_below] at hn
          cases inside with
          | nil => exact .inr (List.append_nil point)
          | cons segment inside => cases segment <;> cases hn
        · by_cases ha : place <+: point
          · have hne : place ≠ point := fun he => hb (he ▸ List.prefix_refl _)
            exact absurd rfl (Slot.ne_null_of_prefix hn ha hne hs.symm.at?_eq)
          · rw [hs.at?_apart hb ha] at hn
            exact .inl hn

namespace Written

/-- What is there after a write was there before it, holds other places, is part of the entry, or is
what has collapsed. -/
theorem at?_cases (h : tree.Written path entry propagating next) {found : Slot}
    (hf : next.data.at? place = some found) :
    (tree.data.at? place = some found ∧ place ≠ path) ∨ (∃ hole child, found = Slot.Hole.fill hole child) ∨
      (propagating = false ∧ ∃ rest, place = path ++ rest ∧ entry.slot.at? rest = some found) ∨
      (propagating = true ∧ found = .null) := by
  have hcontainer : ∀ {point : Path} {slot new : Slot}, slot.at? point = some new →
      slot.at? place = some found → place <+: point → ¬ point <+: place →
        ∃ hole child, found = Slot.Hole.fill hole child := by
    rintro point slot new hpoint hplace ⟨rest, rfl⟩ hn
    cases rest with
    | nil => exact absurd (by simp) hn
    | cons segment rest =>
      obtain ⟨hole, child, hc, -, -⟩ := Slot.at?_above hpoint
      exact ⟨hole, child, Option.some.inj (hplace.symm.trans hc)⟩
  cases h with
  | dropped _ dead =>
    refine .inl ⟨hf, ?_⟩
    rintro rfl
    rw [dead.at?_eq_none] at hf
    cases hf
  | @placed changed swap =>
    change changed.at? place = some found at hf
    by_cases hb : path <+: place
    · obtain ⟨rest, rfl⟩ := hb
      rw [swap.at?_below] at hf
      exact .inr (.inr (.inl ⟨rfl, rest, rfl, hf⟩))
    · by_cases hp : place <+: path
      · exact .inr (.inl (hcontainer swap.symm.at?_eq hf hp hb))
      · rw [swap.at?_apart hb hp] at hf
        exact .inl ⟨hf, fun he => hb (he ▸ List.prefix_refl _)⟩
  | @collapsed point segment rest container changed there below admits swap null =>
    change changed.at? place = some found at hf
    by_cases hb : point <+: place
    · obtain ⟨inside, rfl⟩ := hb
      rw [swap.at?_below] at hf
      cases inside with
      | nil => exact .inr (.inr (.inr ⟨rfl, (Option.some.inj hf).symm⟩))
      | cons segment inside => cases segment <;> cases hf
    · by_cases hp : place <+: point
      · exact .inr (.inl (hcontainer swap.symm.at?_eq hf hp hb))
      · rw [swap.at?_apart hb hp] at hf
        refine .inl ⟨hf, ?_⟩
        rintro rfl
        exact hb (below ▸ List.prefix_append _ _)

/-- A null stays, or what holds it collapses. -/
theorem nulled (h : tree.Written path entry propagating next) (hn : tree.data.Nulled place) :
    next.data.Nulled place := by
  obtain ⟨above, ha, hn⟩ := hn
  cases h with
  | dropped _ _ => exact ⟨above, ha, hn⟩
  | @placed changed swap =>
    refine ⟨above, ha, (swap.at?_apart (fun hb => ?_) fun hb => ?_).trans hn⟩
    · have he := Slot.Open.eq_of_prefix (.inl swap.at?_eq) hb hn
      rw [he, swap.at?_eq] at hn
      cases hn
    · by_cases he : above = path
      · rw [he, swap.at?_eq] at hn
        cases hn
      · exact Slot.ne_null_of_prefix hn hb he swap.at?_eq rfl
  | @collapsed point segment rest container changed there below admits swap null =>
    by_cases hb : point <+: above
    · exact ⟨point, hb.trans ha, swap.symm.at?_eq⟩
    · refine ⟨above, ha, (swap.at?_apart hb fun hp => ?_).trans hn⟩
      have hne : above ≠ point := fun he => hb (he ▸ List.prefix_refl _)
      exact Slot.ne_null_of_prefix hn hp hne swap.at?_eq rfl

/-- Where a null is written there is a null, or above it. -/
theorem nulled_self (h : tree.Written path .null propagating next) : next.data.Nulled path := by
  cases h with
  | dropped _ dead =>
    obtain ⟨above, segment, rest, rfl, hn⟩ := dead
    exact ⟨above, List.prefix_append _ _, hn⟩
  | placed swap => exact ⟨path, List.prefix_refl _, swap.symm.at?_eq⟩
  | collapsed there below admits swap null =>
    exact ⟨_, below ▸ List.prefix_append _ _, swap.symm.at?_eq⟩

end Written

end ResultTree

/-- The error lies inside of a place, and no place from there down to it admits null. -/
def ResponseError.Explains (events : List Event) (error : ResponseError) (path : Path) : Prop :=
  ∃ segment rest, error.path = some (path ++ segment :: rest) ∧
    ∀ place, path <+: place → place ≠ path → place <+: path ++ segment :: rest →
      ∃ type, .declared place type ∈ events ∧ type.isNonNull = true

theorem ResponseError.Explains.append {events : List Event} {error : ResponseError} {path : Path}
    (h : error.Explains events path) (more : List Event) : error.Explains (events ++ more) path := by
  obtain ⟨segment, rest, he, hbelow⟩ := h
  refine ⟨segment, rest, he, fun place hp hne hplace => ?_⟩
  obtain ⟨type, hm, hn⟩ := hbelow place hp hne hplace
  exact ⟨type, List.mem_append_left _ hm, hn⟩

/-- The types of a tree are those that were recorded. -/
theorem declared_of_type {events : List Event} {path : Path} {type : TypeRef}
    (h : (path, type) ∈ (replayed events).types) : .declared path type ∈ events := by
  induction events using List.reverseRecOn with
  | nil => cases h
  | append_singleton events event ih =>
    rw [replayed_append_singleton] at h
    cases event with
    | declared other own =>
      rcases List.mem_cons.mp h with he | h
      · obtain ⟨rfl, rfl⟩ := Prod.mk.inj he
        simp
      · exact List.mem_append_left _ (ih h)
    | wrote other entry propagating landed =>
      obtain ⟨data, hw⟩ := (replayed events).write_eq other entry propagating
      rw [ResultTree.replay, hw] at h
      exact List.mem_append_left _ (ih h)
    | opened | called | authorized | started | slept | woke | settled =>
      exact List.mem_append_left _ (ih h)

namespace State

variable {state : State} {path : Path}

theorem Recorded.declared_of_required (h : state.Recorded)
    (hr : state.tree.isRequired path = true) :
    ∃ type, .declared path type ∈ state.events ∧ type.isNonNull = true := by
  unfold ResultTree.isRequired at hr
  split at hr
  · next type hd =>
    obtain ⟨⟨other, own⟩, hf, rfl⟩ := Option.map_eq_some_iff.mp hd
    obtain rfl : other = path := by simpa using List.find?_some hf
    refine ⟨own, declared_of_type ?_, hr⟩
    rw [← h.alike.types]
    exact List.mem_of_find?_eq_some hf
  · cases hr

/-- An error at a place that does not admit null explains the null of what collapses with it. -/
theorem Recorded.explains_collapse (h : state.Recorded) (hr : state.tree.isRequired path = true)
    (hne : path ≠ []) {error : ResponseError} (he : error.path = some path) :
    error.Explains state.events (state.tree.collapsePoint path) := by
  obtain ⟨segment, rest, hpoint⟩ := state.tree.collapsePoint_above hne
  refine ⟨segment, rest, hpoint ▸ he, fun place hp hn hplace => ?_⟩
  rw [← hpoint] at hplace
  have hrequired : state.tree.isRequired place = true := by
    by_cases hself : place = path
    · rwa [hself]
    · exact ResultTree.isRequired_below_collapsePoint hp hn hplace hself
  exact h.declared_of_required hrequired

/-- The nulls of the data and the errors that have been reported account for each other. -/
structure Accounted (state : State) : Prop where
  located : ∀ error ∈ state.tree.errors, ∃ path, error.path = some path ∧
    state.tree.data.Nulled path
  explained : ∀ path, state.tree.data.at? path = some .null →
    (∃ landed, .wrote path .null false landed ∈ state.events) ∨
      ∃ error ∈ state.tree.errors, error.Explains state.events path
  leaves : ∀ path value, state.tree.data.at? path = some (.leaf value) →
    ∃ own landed, .wrote path (.leaf own) false landed ∈ state.events
  filled : ∀ event ∈ state.events, ∀ path, event.written? = some path →
    state.tree.data.at? path ≠ some .pending

namespace Accounted

/-- A null stays explained by what has happened, whatever happens later. -/
theorem explained_append (h : state.Accounted) (hn : state.tree.data.at? path = some .null)
    (errors : List ResponseError) (events : List Event) :
    (∃ landed, .wrote path .null false landed ∈ state.events ++ events) ∨
      ∃ error ∈ state.tree.errors ++ errors, error.Explains (state.events ++ events) path := by
  rcases h.explained path hn with ⟨landed, hm⟩ | ⟨error, herror, hx⟩
  · exact .inl ⟨landed, List.mem_append_left _ hm⟩
  · exact .inr ⟨error, List.mem_append_left _ herror, hx.append events⟩

/-- A step that neither changes the data nor reports an error. -/
theorem later (h : state.Accounted) {next : State} (hd : next.tree.data = state.tree.data)
    (he : next.tree.errors = state.tree.errors) (more : List Event)
    (hm : next.events = state.events ++ more)
    (hw : ∀ event ∈ more, event.written? = none) : next.Accounted where
  located error herror := by
    rw [he] at herror
    rw [hd]
    exact h.located error herror
  explained path hn := by
    rw [hd] at hn
    have hexplained := h.explained_append hn [] more
    rwa [List.append_nil, ← he, ← hm] at hexplained
  leaves path value hl := by
    rw [hd] at hl
    obtain ⟨own, landed, hlanded⟩ := h.leaves path value hl
    rw [hm]
    exact ⟨own, landed, List.mem_append_left _ hlanded⟩
  filled event hevent path hp := by
    rw [hm] at hevent
    rw [hd]
    rcases List.mem_append.mp hevent with hevent | hevent
    · exact h.filled event hevent path hp
    · rw [hw event hevent] at hp
      cases hp

section Write

variable {entry : Entry} {propagating : Bool} {next : ResultTree}

theorem leaves_write (h : state.Accounted) (hw : state.tree.Written path entry propagating next)
    (hp : entry.Proper) (landed : Bool) {place : Path} {value : Json}
    (hl : next.data.at? place = some (.leaf value)) :
    ∃ own landed', .wrote place (.leaf own) false landed' ∈
      state.events ++ [.wrote path entry propagating landed] := by
  rcases hw.at?_cases hl with ⟨hold, -⟩ | ⟨hole, child, hc⟩ | ⟨rfl, rest, rfl, he⟩ | ⟨-, hn⟩
  · obtain ⟨own, landed', hm⟩ := h.leaves place value hold
    exact ⟨own, landed', List.mem_append_left _ hm⟩
  · cases hole <;> cases hc
  · cases rest with
    | cons segment rest => cases (hp.eq_pending he).2
    | nil =>
      cases entry with
      | leaf own => exact ⟨own, landed, by simp⟩
      | null | object | list => cases he
  · cases hn

theorem filled_write (h : state.Accounted) (hb : Begun state.events path)
    (hw : state.tree.Written path entry propagating next) (landed : Bool) {event : Event}
    (hevent : event ∈ state.events ++ [.wrote path entry propagating landed]) {place : Path}
    (hplace : event.written? = some place) : next.data.at? place ≠ some .pending := by
  intro hpending
  rcases hw.at?_cases hpending with ⟨hold, hne⟩ | ⟨hole, child, hc⟩ | ⟨-, rest, rfl, he⟩ | ⟨-, hn⟩
  · rcases List.mem_append.mp hevent with hevent | hevent
    · exact h.filled event hevent place hplace hold
    · obtain rfl := List.mem_singleton.mp hevent
      exact hne (Option.some.inj hplace).symm
  · exact Slot.fill_ne_pending hole child hc.symm
  · -- nothing inside of the place has been written before
    have hself : path ++ rest = path := by
      rcases List.mem_append.mp hevent with hevent | hevent
      · exact hb.inside event hevent _ (.inr (.inl hplace)) (List.prefix_append _ _)
      · obtain rfl := List.mem_singleton.mp hevent
        exact (Option.some.inj hplace).symm
    obtain rfl : rest = [] := by simpa using hself
    cases entry <;> cases he
  · cases hn

/-- A value other than a null is written. -/
theorem write (h : state.Accounted) (hb : Begun state.events path) (hr : state.tree.Regular)
    (ho : state.tree.data.Open path) (hp : entry.Proper) (hn : entry ≠ .null) :
    (state.perform (.write path entry false)).Accounted := by
  have hw : state.tree.Written path entry false _ :=
    ResultTree.written hr ho entry fun h => nomatch h
  refine ⟨fun error herror => ?_, fun place hnull => ?_, fun place value hl => ?_,
    fun event hevent place hplace => ?_⟩
  · rw [perform_write, errors_write] at herror
    obtain ⟨own, hown, hnulled⟩ := h.located error herror
    exact ⟨own, hown, hw.nulled hnulled⟩
  · rw [events_write]
    rcases hw.at?_cases hnull with ⟨hold, -⟩ | ⟨hole, child, hc⟩ | ⟨-, rest, rfl, he⟩ | ⟨hf, -⟩
    · have hexplained := h.explained_append hold []
        [.wrote path entry false (state.tree.write? path entry false).isSome]
      rwa [List.append_nil, ← errors_write state.tree path entry false] at hexplained
    · exact absurd hc.symm (Slot.fill_ne_null hole child)
    · exact absurd (hp.eq_null he).2 hn
    · cases hf
  · rw [events_write]
    exact h.leaves_write hw hp _ hl
  · rw [events_write] at hevent
    exact h.filled_write hb hw _ hevent hplace

/-- A null is written with the errors that are reported for it. -/
theorem null (h : state.Accounted) (hk : state.Recorded) (hb : Begun state.events path)
    (hr : state.tree.Regular) (ho : state.tree.data.Open path)
    (hreq : state.tree.isRequired path = propagating) (hne : propagating = true → path ≠ [])
    {errors : List ResponseError} (hpath : ∀ error ∈ errors, error.path = some path)
    (herrors : propagating = true → errors ≠ []) :
    (state.performAll [.report errors, .write path .null propagating]).Accounted := by
  have hw : state.tree.Written path .null propagating _ := ResultTree.written hr ho .null hne
  have htree : (state.performAll [.report errors, .write path .null propagating]).tree =
      (state.tree.write path .null propagating).report errors :=
    ResultTree.report_write _ _ _ _ _
  have hreport : (state.performAll [.report errors, .write path .null propagating]).tree.errors =
      state.tree.errors ++ errors := by
    rw [htree, ResultTree.report, errors_write]
  have hdata : (state.performAll [.report errors, .write path .null propagating]).tree.data =
      (state.tree.write path .null propagating).data := by
    rw [htree]
    rfl
  have hevents : ∃ landed,
      (state.performAll [.report errors, .write path .null propagating]).events =
        state.events ++ [.wrote path .null propagating landed] :=
    ⟨_, events_write (state.perform (.report errors)) path .null propagating⟩
  obtain ⟨landed, hevents⟩ := hevents
  refine ⟨fun error herror => ?_, fun place hnull => ?_, fun place value hl => ?_,
    fun event hevent place hplace => ?_⟩
  · rw [hreport] at herror
    rw [hdata]
    rcases List.mem_append.mp herror with herror | herror
    · obtain ⟨own, hown, hnulled⟩ := h.located error herror
      exact ⟨own, hown, hw.nulled hnulled⟩
    · exact ⟨path, hpath error herror, hw.nulled_self⟩
  · rw [hdata] at hnull
    rw [hevents, hreport]
    cases propagating with
    | false =>
      rcases hw.at?_cases hnull with ⟨hplace, -⟩ | ⟨hole, child, hc⟩ | ⟨-, rest, rfl, he⟩ | ⟨hf, -⟩
      · exact h.explained_append hplace errors _
      · exact absurd hc.symm (Slot.fill_ne_null hole child)
      · have hproper : Entry.Proper .null := trivial
        obtain ⟨rfl, -⟩ := hproper.eq_null he
        exact .inl ⟨landed, by simp⟩
      · cases hf
    | true =>
      rcases ResultTree.null_of_collapse hnull with hplace | rfl
      · exact h.explained_append hplace errors _
      · obtain ⟨error, herror⟩ := List.exists_mem_of_ne_nil errors (herrors rfl)
        have hexplains := hk.explains_collapse hreq (hne rfl) (hpath error herror)
        exact .inr ⟨error, List.mem_append_right _ herror, hexplains.append _⟩
  · rw [hdata] at hl
    rw [hevents]
    exact h.leaves_write hw trivial _ hl
  · rw [hevents] at hevent
    rw [hdata]
    exact h.filled_write hb hw _ hevent hplace

end Write

end Accounted

end State

end GraphQL
