import GraphQL.Proofs.Discipline

/-!
# Where data come from

Whatever stands in the data was written there. A write changes the data at one place, and what lies
around that place keeps its keys and its length; so the value at a place is the entry that was last
written there, with more or less of it filled in. This needs nothing of the order of the writes.
-/

namespace GraphQL

namespace Members

variable {α : Type}

theorem mem_set {name : String} {value : α} {members : Members α} {member : String × α}
    (h : member ∈ set name value members) : member.2 = value ∨ member ∈ members := by
  induction members with
  | nil =>
    obtain rfl := List.mem_singleton.mp h
    exact .inl rfl
  | cons first rest ih =>
    rw [set] at h
    split at h
    · rcases List.mem_cons.mp h with rfl | h
      · exact .inl rfl
      · exact .inr (List.mem_cons_of_mem _ h)
    · rcases List.mem_cons.mp h with rfl | h
      · exact .inr List.mem_cons_self
      · exact (ih h).imp id (List.mem_cons_of_mem _)

/-- Members have the values of the pairs from which they are set. -/
theorem value_of_mem_ofList {pairs : List (String × α)} {member : String × α}
    (h : member ∈ ofList pairs) : ∃ pair ∈ pairs, pair.2 = member.2 := by
  have hfold : ∀ (start : Members α), member ∈ pairs.foldl (fun members pair =>
      set pair.1 pair.2 members) start → member ∈ start ∨ ∃ pair ∈ pairs, pair.2 = member.2 := by
    clear h
    induction pairs with
    | nil => exact fun start h => .inl h
    | cons first rest ih =>
      intro start h
      rcases ih _ h with h | ⟨pair, hp, hv⟩
      · exact (mem_set h).symm.imp id fun hv => ⟨first, List.mem_cons_self, hv.symm⟩
      · exact .inr ⟨pair, List.mem_cons_of_mem _ hp, hv⟩
  exact (hfold [] h).resolve_left fun hn => nomatch hn

end Members

namespace Slot

/-- A value without what it holds. -/
def bare : Slot → Slot
  | object members => .object (members.map fun member => (member.1, .pending))
  | list items => .list (items.map fun _ => .pending)
  | slot => slot

theorem bare_fill (hole : Hole) (slot changed : Slot) :
    (hole.fill slot).bare = (hole.fill changed).bare := by
  cases hole <;> simp [Hole.fill, bare]

theorem bare_eq_pending {slot : Slot} : slot.bare = .pending ↔ slot = .pending := by
  cases slot <;> simp [bare]

/-- A change at one place leaves alone what lies beside it, and around it the keys and lengths. -/
theorem Swap.bare_eq {path other : Path} {old new slot changed : Slot}
    (h : Swap path old new slot changed) (hp : ¬ path <+: other) :
    (changed.at? other).map bare = (slot.at? other).map bare := by
  induction h generalizing other with
  | here old new => exact absurd List.nil_prefix hp
  | @inside path old new slot changed hole _ ih =>
    cases other with
    | nil => exact congrArg some (bare_fill hole changed slot)
    | cons segment other =>
      by_cases hs : segment = hole.segment
      · subst hs
        rw [at?_fill, at?_fill]
        exact ih fun hc => hp (List.cons_prefix_cons.mpr ⟨rfl, hc⟩)
      · rw [at?_fill_other hs changed slot]

end Slot

namespace Entry

/-- What lies inside of an entry is pending when it is written. -/
theorem at?_slot (entry : Entry) {path : Path} {found : Slot}
    (h : entry.slot.at? path = some found) : path = [] ∧ found = entry.slot ∨ found = .pending := by
  cases path with
  | nil => exact .inl ⟨rfl, (Option.some.inj h).symm⟩
  | cons segment path =>
    right
    have hpending : ∀ child : Slot, child = .pending → child.at? path = some found →
        found = .pending := by
      rintro child rfl hc
      cases path with
      | nil => exact (Option.some.inj hc).symm
      | cons segment path => cases segment <;> cases hc
    obtain ⟨hole, child, he, -, hc⟩ := Slot.at?_cons h
    refine hpending child ?_ hc
    cases entry with
    | null | leaf => cases hole <;> cases he
    | object keys =>
      cases hole with
      | item before after => cases he
      | member before name after fresh =>
        have hm : (name, child) ∈ Members.ofList (keys.map fun key => (key, Slot.pending)) := by
          rw [Slot.object.inj he]
          simp
        obtain ⟨pair, hp, hv⟩ := Members.value_of_mem_ofList hm
        obtain ⟨key, -, rfl⟩ := List.mem_map.mp hp
        exact hv.symm
    | list length =>
      cases hole with
      | member before name after fresh => cases he
      | item before after =>
        have hm : child ∈ List.replicate length Slot.pending := by
          rw [Slot.list.inj he]
          simp
        exact List.eq_of_mem_replicate hm

/-- An entry opens pending places only. -/
theorem bare_slot (entry : Entry) : entry.slot.bare = entry.slot := by
  cases entry with
  | null => rfl
  | leaf value => rfl
  | list length => simp [slot, Slot.bare]
  | object keys =>
    have hsame : ∀ member ∈ Members.ofList (keys.map fun key => (key, Slot.pending)),
        (member.1, Slot.pending) = member := by
      intro member hm
      obtain ⟨pair, hp, hv⟩ := Members.value_of_mem_ofList hm
      obtain ⟨key, -, rfl⟩ := List.mem_map.mp hp
      exact Prod.ext rfl hv
    rw [slot, Slot.bare, List.map_congr_left hsame, List.map_id']

end Entry

namespace ResultTree

variable {tree : ResultTree} {path : Path} {entry : Entry} {propagating : Bool}

/-- A write changes nothing, puts the entry at its place, or turns something into a null. -/
theorem data_write (tree : ResultTree) (path : Path) (entry : Entry) (propagating : Bool) :
    (tree.write path entry propagating).data = tree.data ∨
      (∃ old, propagating = false ∧
        Slot.Swap path old entry.slot tree.data (tree.write path entry propagating).data) ∨
      ∃ point old,
        Slot.Swap point old .null tree.data (tree.write path entry propagating).data := by
  cases propagating with
  | false =>
    simp only [write, write?, place?, Bool.false_eq_true, if_false]
    cases hf : tree.data.at? path with
    | none =>
      rw [Slot.update?_of_at?_none _ hf]
      exact .inl rfl
    | some old =>
      obtain ⟨changed, hs⟩ := Slot.exists_swap hf entry.slot
      by_cases hp : old.isPending = true
      · rw [hs.update? _ (by simp [hp])]
        exact .inr (.inl ⟨old, trivial, hs⟩)
      · rw [hs.refused (by simp [hp])]
        exact .inl rfl
  | true =>
    simp only [write, write?, collapse?, if_true]
    cases tree.collapsePoint path with
    | nil => exact .inr (.inr ⟨[], tree.data, .here _ _⟩)
    | cons segment rest =>
      dsimp only
      generalize segment :: rest = point
      cases hf : tree.data.at? point with
      | none =>
        rw [Slot.update?_of_at?_none _ hf]
        exact .inl rfl
      | some old =>
        obtain ⟨changed, hs⟩ := Slot.exists_swap hf .null
        by_cases hn : old.isNull = true
        · rw [hs.refused (by simp [hn])]
          exact .inl rfl
        · rw [hs.update? _ (by simp [hn])]
          exact .inr (.inr ⟨point, old, hs⟩)

end ResultTree

/-- **Whatever stands in the data was written there.** A value other than a null is, without what it
holds, the entry of a write at its place. -/
theorem written_of_at? {events : List Event} {place : Path} {found : Slot}
    (h : (replayed events).data.at? place = some found) (hp : found ≠ .pending)
    (hn : found ≠ .null) :
    ∃ entry landed, .wrote place entry false landed ∈ events ∧ entry.slot = found.bare := by
  induction events using List.reverseRecOn generalizing found with
  | nil =>
    cases place with
    | nil => exact absurd (Option.some.inj h).symm hp
    | cons segment place => cases segment <;> cases h
  | append_singleton events event ih =>
    have hkept : ((replayed events).data.at? place).map Slot.bare = some found.bare →
        ∃ entry landed, .wrote place entry false landed ∈ events ++ [event] ∧
          entry.slot = found.bare := by
      intro hold
      obtain ⟨old, ho, hbare⟩ := Option.map_eq_some_iff.mp hold
      have hpending : old ≠ .pending := fun he => hp (Slot.bare_eq_pending.mp (by rw [← hbare, he]; rfl))
      have hnull : old ≠ .null := by
        rintro rfl
        cases found <;> cases hbare
        exact hn rfl
      obtain ⟨entry, landed, hm, he⟩ := ih ho hpending hnull
      exact ⟨entry, landed, List.mem_append_left _ hm, he.trans hbare⟩
    rw [replayed_append_singleton] at h
    cases event with
    | wrote path entry propagating landed =>
      rw [ResultTree.replay] at h
      rcases (replayed events).data_write path entry propagating with
        he | ⟨old, rfl, hs⟩ | ⟨point, old, hs⟩
      · rw [he] at h
        exact hkept (congrArg (Option.map Slot.bare) h)
      · by_cases hb : path <+: place
        · obtain ⟨rest, rfl⟩ := hb
          rw [hs.at?_below] at h
          rcases entry.at?_slot h with ⟨rfl, rfl⟩ | rfl
          · exact ⟨entry, landed, by simp, entry.bare_slot.symm⟩
          · exact absurd rfl hp
        · exact hkept ((hs.bare_eq hb).symm.trans (congrArg (Option.map Slot.bare) h))
      · by_cases hb : point <+: place
        · obtain ⟨rest, rfl⟩ := hb
          rw [hs.at?_below] at h
          cases rest with
          | nil => exact absurd (Option.some.inj h).symm hn
          | cons segment rest => cases segment <;> cases h
        · exact hkept ((hs.bare_eq hb).symm.trans (congrArg (Option.map Slot.bare) h))
    | _ => exact hkept (congrArg (Option.map Slot.bare) h)

end GraphQL
