import GraphQL.Response.Encoding
import GraphQL.Proofs.Places
import Mathlib.Data.List.Perm.Subperm
import Mathlib.Data.Option.Basic

/-!
# Responses survive their JSON form

A response is read back from its JSON form as it was. What is left out of the form (locations, a
path, extensions, errors) is told apart from what is set but empty, and a key from the index that
looks like it. Indices are natural numbers here and the reader takes 64 bits of them, so a path goes
through if its indices fit; nothing else can be lost.

The forms of errors are compared in two ways: as they are written, and as JSON values, where an
object is what it holds under each name in whatever order. Errors with different content have
different forms in both.
-/

namespace GraphQL

theorem rel_eq {α : Type} {a b : Option α} : Option.Rel Eq a b ↔ a = b := by
  cases a <;> cases b <;> simp

theorem Members.mem_names_iff {α : Type} {members : Members α} {name : String} :
    name ∈ members.names ↔ (members.get? name).isSome := by
  induction members with
  | nil => simp [Members.names, Members.get?]
  | cons member rest ih =>
    obtain ⟨key, value⟩ := member
    by_cases hk : key = name
    · simp [Members.names, Members.get?, hk]
    · simpa [Members.names, Members.get?, hk, Ne.symm hk] using ih

namespace Json

theorem asUInt32?_toNat (number : UInt32) : asUInt32? (.int number.toNat) = some number := by
  have hlt : number.toNat < 4294967296 := number.toNat_lt
  have hle : (number.toNat : Int) ≤ 4294967295 := by omega
  simp [asUInt32?, hle]

theorem asSize?_natCast (place : Nat) :
    asSize? (.int place) = some place ↔ place < UInt64.size := by
  have hle : (place : Int) ≤ maxUInt64 ↔ place < UInt64.size := by
    unfold maxUInt64 UInt64.size
    omega
  simp [asSize?, hle]

/-- Elements that are written one by one are read back if each of them is. -/
theorem asList?_map {α : Type} (write : α → Json) (read : Json → Option α) (items : List α) :
    asList? read (.arr (items.map write)) = some items ↔
      ∀ item ∈ items, read (write item) = some item := by
  simp only [asList?]
  induction items with
  | nil => simp
  | cons item rest ih =>
    rw [List.map_cons, List.mapM_cons, List.forall_mem_cons, ← ih]
    simp [Option.bind_eq_some_iff]

theorem sameMembers_iff (members others : Members Json) :
    sameMembers members others = true ↔
      ∀ member ∈ members, ∃ value, Members.get? member.1 others = some value ∧
        same member.2 value = true := by
  induction members with
  | nil => simp [sameMembers]
  | cons member rest ih =>
    obtain ⟨name, value⟩ := member
    rw [sameMembers, Bool.and_eq_true, ih, List.forall_mem_cons]
    refine and_congr_left fun _ => ?_
    cases Members.get? name others <;> simp

/-- The same value, or none on either side. -/
abbrev SameIfAny : Option Json → Option Json → Prop :=
  Option.Rel fun value other => same value other = true

/-- Objects without repeated names are the same if they hold the same under each name. -/
theorem same_obj_iff {members others : Members Json} (hm : members.names.Nodup)
    (ho : others.names.Nodup) :
    same (.obj members) (.obj others) = true ↔
      ∀ name, SameIfAny (members.get? name) (others.get? name) := by
  rw [same, Bool.and_eq_true, beq_iff_eq, sameMembers_iff]
  constructor
  · rintro ⟨hl, h⟩ name
    have hsub : members.names ⊆ others.names := by
      intro other hother
      obtain ⟨member, hmember, rfl⟩ := List.mem_map.mp hother
      obtain ⟨value, hv, -⟩ := h member hmember
      exact Members.mem_names_iff.mpr (Option.isSome_of_eq_some hv)
    -- The check goes one way: that no name is left over in the second object is by number.
    have hperm : members.names.Perm others.names :=
      (hm.subperm hsub).perm_of_length_le (by simp [Members.names, hl])
    cases hf : members.get? name with
    | some value =>
      obtain ⟨other, hg, hs⟩ := h _ (Members.mem_of_get? hf)
      rw [hg]
      exact .some hs
    | none =>
      cases hg : others.get? name with
      | none => exact .none
      | some other =>
        have hname : name ∈ members.names :=
          hperm.mem_iff.mpr (Members.mem_names_iff.mpr (Option.isSome_of_eq_some hg))
        rw [Members.mem_names_iff, hf] at hname
        cases hname
  · intro h
    have hperm : members.names.Perm others.names := by
      refine (List.perm_ext_iff_of_nodup hm ho).mpr fun name => ?_
      rw [Members.mem_names_iff, Members.mem_names_iff]
      generalize members.get? name = found, others.get? name = other, h name = hrel
      cases hrel <;> rfl
    refine ⟨by simpa [Members.names] using hperm.length_eq, fun member hmember => ?_⟩
    have hf := Members.get?_of_mem hm hmember
    have hrel := h member.1
    rw [hf] at hrel
    cases hg : others.get? member.1 with
    | none =>
      rw [hg] at hrel
      cases hrel
    | some other =>
      rw [hg] at hrel
      cases hrel with
      | some hs => exact ⟨other, rfl, hs⟩

/-- Lists written item by item are the same exactly if they are equal, provided that items are. -/
theorem sameItems_map {α : Type} {write : α → Json}
    (h : ∀ a b, same (write a) (write b) = true ↔ a = b) (items others : List α) :
    sameItems (items.map write) (others.map write) = true ↔ items = others := by
  induction items generalizing others with
  | nil => cases others <;> simp [sameItems]
  | cons item rest ih => cases others <;> simp [sameItems, h, ih]

end Json

namespace Position

theorem ofJson?_toJson (position : Position) : ofJson? position.toJson = some position := by
  simp [toJson, ofJson?, Members.get?, Json.asUInt32?_toNat]

theorem same_toJson (a b : Position) : a.toJson.same b.toJson = true ↔ a = b := by
  obtain ⟨line, column⟩ := a
  obtain ⟨otherLine, otherColumn⟩ := b
  rw [Position.mk.injEq, ← UInt32.toNat_inj, ← UInt32.toNat_inj, ← Int.natCast_inj,
    ← Int.natCast_inj (m := column.toNat)]
  simp [toJson, Json.same, Json.sameMembers, Members.get?]

end Position

namespace PathSegment

theorem ofJson?_toJson (segment : PathSegment) :
    ofJson? segment.toJson = some segment ↔
      ∀ place, segment = .index place → place < UInt64.size := by
  cases segment with
  | key name => exact ⟨fun _ => nofun, fun _ => rfl⟩
  | index place =>
    have hread : ofJson? (toJson (.index place)) = some (.index place) ↔
        Json.asSize? (.int place) = some place := by
      simp [toJson, ofJson?]
    rw [hread, Json.asSize?_natCast]
    exact ⟨fun h other he => PathSegment.index.inj he ▸ h, fun h => h place rfl⟩

theorem same_toJson (a b : PathSegment) : a.toJson.same b.toJson = true ↔ a = b := by
  cases a <;> cases b <;> simp only [toJson, Json.same]
  case index.index => rw [beq_iff_eq, Int.natCast_inj, PathSegment.index.injEq]
  all_goals simp

end PathSegment

namespace Path

/-- Every index of the path fits into 64 bits. -/
def Fits (path : Path) : Prop := ∀ place, .index place ∈ path → place < UInt64.size

theorem ofJson?_toJson (path : Path) : ofJson? path.toJson = some path ↔ path.Fits := by
  unfold ofJson? toJson
  rw [Json.asList?_map]
  constructor
  · intro h place hm
    exact (PathSegment.ofJson?_toJson _).mp (h _ hm) place rfl
  · intro h segment hm
    refine (PathSegment.ofJson?_toJson segment).mpr fun place he => ?_
    exact h place (he ▸ hm)

theorem same_toJson (a b : Path) : a.toJson.same b.toJson = true ↔ a = b := by
  simp only [toJson, Json.same]
  exact Json.sameItems_map PathSegment.same_toJson a b

end Path

namespace ResponseError

/-- Every index of the path of the error, if it has one, fits into 64 bits. -/
def Fits (error : ResponseError) : Prop := ∀ path, error.path = some path → path.Fits

/-- The locations as they are written: left out if there are none. -/
def locations? (error : ResponseError) : Option Json :=
  if error.locations.isEmpty then none else some (.arr (error.locations.map Position.toJson))

/-- The members of the JSON form of an error. -/
def members (error : ResponseError) : Members Json :=
  ("message", .str error.message) ::
    ((error.locations?.map fun value => ("locations", value)).toList ++
    (error.path.map fun path => ("path", path.toJson)).toList ++
    (error.extensions.map fun members => ("extensions", Json.obj members)).toList)

theorem toJson_eq (error : ResponseError) : error.toJson = .obj error.members := by
  unfold toJson members locations?
  cases error.locations <;> rfl

theorem get?_members (error : ResponseError) (name : String) :
    error.members.get? name =
      if "message" = name then some (.str error.message)
      else if "locations" = name then error.locations?
      else if "path" = name then error.path.map Path.toJson
      else if "extensions" = name then error.extensions.map Json.obj
      else none := by
  unfold members
  cases error.locations? <;> cases error.path <;> cases error.extensions <;>
    simp [Members.get?] <;> grind

theorem nodup_members (error : ResponseError) : error.members.names.Nodup := by
  unfold members
  cases error.locations? <;> cases error.path <;> cases error.extensions <;>
    simp [Members.names]

theorem get?_message (error : ResponseError) :
    error.members.get? "message" = some (.str error.message) := by simp [get?_members]

theorem get?_locations (error : ResponseError) :
    error.members.get? "locations" = error.locations? := by simp [get?_members]

theorem get?_path (error : ResponseError) :
    error.members.get? "path" = error.path.map Path.toJson := by simp [get?_members]

theorem get?_extensions (error : ResponseError) :
    error.members.get? "extensions" = error.extensions.map Json.obj := by simp [get?_members]

theorem locations?_cases (error : ResponseError) :
    (error.locations? = none ∧ error.locations = []) ∨ ∃ value, error.locations? = some value ∧
      value.asList? Position.ofJson? = some error.locations := by
  unfold locations?
  cases hl : error.locations with
  | nil => exact .inl ⟨rfl, rfl⟩
  | cons first rest =>
    refine .inr ⟨_, rfl, ?_⟩
    exact (Json.asList?_map _ _ _).mpr fun position _ => position.ofJson?_toJson

/-- An error is read back as it was, but for its path, which is read as a path is. -/
theorem ofJson?_toJson_eq (error : ResponseError) :
    ofJson? error.toJson =
      (error.path.elim (some none) fun path => (Path.ofJson? path.toJson).map some).map
        fun path => { error with path } := by
  have hpath : ∀ path : Path, path.toJson.asNullable? Path.ofJson? =
      (Path.ofJson? path.toJson).map some := fun _ => rfl
  have hextensions : ∀ members : Members Json,
      (Json.obj members).asNullable? Json.asMembers? = some (some members) := fun _ => rfl
  rw [toJson_eq]
  simp only [ofJson?, get?_message, get?_locations, get?_path, get?_extensions]
  obtain ⟨hl, he⟩ | ⟨value, hl, he⟩ := error.locations?_cases
  all_goals
    cases error.path <;> cases error.extensions <;>
      simp [hl, he, Json.asText?, hpath, hextensions, Option.map_eq_bind, Option.bind_assoc]

theorem ofJson?_toJson (error : ResponseError) :
    ofJson? error.toJson = some error ↔ error.Fits := by
  rw [ofJson?_toJson_eq]
  obtain ⟨message, locations, path, extensions⟩ := error
  cases path with
  | none => exact ⟨fun _ => nofun, fun _ => rfl⟩
  | some path => simp [Fits, ← Path.ofJson?_toJson]

/-- A key that looks like an index is not one, and a path that is empty is not unset. -/
example :
    ofJson? (.obj [("message", .str "lost"), ("path", .arr [.str "0", .int 0])]) =
      some { message := "lost", path := some [.key "0", .index 0] } ∧
    ofJson? (.obj [("message", .str "lost"), ("path", .arr [])]) =
      some { message := "lost", path := some [] } := ⟨rfl, rfl⟩

/-- Two errors have the same content: their extensions hold the same under each name. -/
structure Same (a b : ResponseError) : Prop where
  message : a.message = b.message
  locations : a.locations = b.locations
  path : a.path = b.path
  extensions : Option.Rel (fun members others => Json.same (.obj members) (.obj others) = true)
    a.extensions b.extensions

/-- The members of two errors are related name by name if what they are made of is. -/
theorem rel_members {r : Json → Json → Prop} (a b : ResponseError) :
    (∀ name, Option.Rel r (a.members.get? name) (b.members.get? name)) ↔
      r (.str a.message) (.str b.message) ∧
      Option.Rel r a.locations? b.locations? ∧
      Option.Rel r (a.path.map Path.toJson) (b.path.map Path.toJson) ∧
      Option.Rel r (a.extensions.map Json.obj) (b.extensions.map Json.obj) := by
  constructor
  · intro h
    have hmessage := h "message"
    have hlocations := h "locations"
    have hpath := h "path"
    have hextensions := h "extensions"
    rw [get?_message, get?_message, Option.rel_some_some] at hmessage
    rw [get?_locations, get?_locations] at hlocations
    rw [get?_path, get?_path] at hpath
    rw [get?_extensions, get?_extensions] at hextensions
    exact ⟨hmessage, hlocations, hpath, hextensions⟩
  · rintro ⟨hmessage, hlocations, hpath, hextensions⟩ name
    rw [get?_members, get?_members]
    split_ifs
    · exact .some hmessage
    · exact hlocations
    · exact hpath
    · exact hextensions
    · exact .none

theorem same_locations? (a b : ResponseError) :
    Json.SameIfAny a.locations? b.locations? ↔ a.locations = b.locations := by
  unfold locations?
  cases ha : a.locations <;> cases hb : b.locations
  · exact ⟨fun _ => rfl, fun _ => .none⟩
  · exact ⟨nofun, nofun⟩
  · exact ⟨nofun, nofun⟩
  · rw [← Json.sameItems_map Position.same_toJson]
    exact Option.rel_some_some

theorem same_path (a b : ResponseError) :
    Json.SameIfAny (a.path.map Path.toJson) (b.path.map Path.toJson) ↔ a.path = b.path := by
  cases a.path <;> cases b.path <;> simp [Path.same_toJson]

theorem same_extensions (a b : ResponseError) :
    Json.SameIfAny (a.extensions.map Json.obj) (b.extensions.map Json.obj) ↔
      Option.Rel (fun members others => Json.same (.obj members) (.obj others) = true)
        a.extensions b.extensions := by
  cases a.extensions <;> cases b.extensions <;> simp

theorem same_toJson (a b : ResponseError) : a.toJson.same b.toJson = true ↔ a.Same b := by
  rw [toJson_eq, toJson_eq, Json.same_obj_iff a.nodup_members b.nodup_members, rel_members]
  constructor
  · rintro ⟨hmessage, hlocations, hpath, hextensions⟩
    exact {
      message := by simpa [Json.same] using hmessage
      locations := (same_locations? a b).mp hlocations
      path := (same_path a b).mp hpath
      extensions := (same_extensions a b).mp hextensions }
  · intro h
    exact ⟨by simpa [Json.same] using h.message, (same_locations? a b).mpr h.locations,
      (same_path a b).mpr h.path, (same_extensions a b).mpr h.extensions⟩

-- No consequence of the above: a value need not be the same as itself, as floats are compared as
-- numbers.
theorem toJson_injective : Function.Injective toJson := by
  intro a b h
  rw [toJson_eq, toJson_eq] at h
  have hequal : ∀ name, Option.Rel Eq (a.members.get? name) (b.members.get? name) := by
    intro name
    rw [Json.obj.inj h]
    exact rel_eq.mpr rfl
  obtain ⟨hmessage, hlocations, hpath, hextensions⟩ := (rel_members a b).mp hequal
  rw [rel_eq] at hlocations hpath hextensions
  have hlocations' : a.locations = b.locations := by
    rw [← same_locations?, hlocations, same_locations?]
  have hpath' : a.path = b.path := by
    rw [← same_path, hpath, same_path]
  have hextensions' : a.extensions = b.extensions :=
    Option.map_injective (fun _ _ => Json.obj.inj) hextensions
  obtain ⟨message, locations, path, extensions⟩ := a
  cases hlocations'
  cases hpath'
  cases hextensions'
  cases hmessage
  rfl

end ResponseError

namespace Response

theorem ofJson?_toJson (response : Response) :
    ofJson? response.toJson = some response ↔ ∀ error ∈ response.errors, error.Fits := by
  obtain ⟨data, errors⟩ := response
  -- `errors` is left out only if it is empty, and then it is read as empty.
  have hread := Json.asList?_map ResponseError.toJson ResponseError.ofJson? errors
  simp only [ResponseError.ofJson?_toJson] at hread
  rw [← hread]
  cases errors with
  | nil => simp [toJson, ofJson?, Members.get?, Json.asList?]
  | cons error rest =>
    rw [List.map_cons]
    simp [toJson, ofJson?, Members.get?, Option.bind_eq_some_iff]

/-- **Responses survive their JSON form.** A response is read back as it was: the data, the errors,
and of each error the message, the locations, the path and the extensions, whether they are unset,
empty or not. All that it takes is that indices fit into 64 bits, as those of lists do. Different
errors have different forms, and forms are the same JSON value exactly if the errors have the same
content. -/
theorem response_restored (response : Response) :
    (ofJson? response.toJson = some response ↔ ∀ error ∈ response.errors, error.Fits) ∧
    Function.Injective ResponseError.toJson ∧
    ∀ a b : ResponseError, a.toJson.same b.toJson = true ↔ a.Same b :=
  ⟨response.ofJson?_toJson, ResponseError.toJson_injective, ResponseError.same_toJson⟩

end Response

end GraphQL
