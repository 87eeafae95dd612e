import GraphQL.Proofs.Provenance
import GraphQL.Request.Arguments

/-!
# Literals for the values of variables

A variable in an input value can be replaced by the literal of its value. Where it has none, what
stands for it is left out: an argument or an entry of an object is deleted, and the element of a
list becomes null. The input value that is left mentions no variable and has the same value.

A literal can be written for every value of the JSON data model, whose floats are finite and whose
objects have distinct names. The values that input values have are of this kind.
-/

namespace GraphQL

namespace Members

variable {α : Type}

theorem nodup_set {name : String} {value : α} {members : Members α} (h : (names members).Nodup) :
    (names (set name value members)).Nodup := by
  by_cases hm : name ∈ names members
  · have hsame : names (set name value members) = names members := by
      clear h
      induction members with
      | nil => cases hm
      | cons member rest ih =>
        by_cases hk : member.1 = name
        · simp [set, names, hk]
        · simp only [names, List.map_cons, List.mem_cons, Ne.symm hk, false_or] at hm
          simpa [set, names, hk] using ih hm
    rw [hsame]
    exact h
  · rw [set_of_fresh hm, names, List.map_append]
    refine List.nodup_append.mpr ⟨h, by simp, ?_⟩
    rintro other ho _ hname rfl
    obtain rfl : other = name := by simpa using hname
    exact hm ho

theorem nodup_ofList (pairs : List (String × α)) : (names (ofList pairs)).Nodup := by
  have hfold : ∀ start : Members α, (names start).Nodup →
      (names (pairs.foldl (fun members pair => set pair.1 pair.2 members) start)).Nodup := by
    induction pairs with
    | nil => exact fun _ hs => hs
    | cons pair rest ih => exact fun start hs => ih _ (nodup_set hs)
  exact hfold [] List.nodup_nil

end Members

namespace Json

mutual

/-- The literal of a value. -/
def literal : Json → InputValue
  | null => .null
  | bool b => .bool b
  | int i => .int i
  | float x => .float x
  | str text => .str text
  | arr items => .list (literals items)
  | obj members => .object (memberLiterals members)

def literals : List Json → List InputValue
  | [] => []
  | item :: rest => literal item :: literals rest

def memberLiterals : List (String × Json) → List (String × InputValue)
  | [] => []
  | (name, value) :: rest => (name, literal value) :: memberLiterals rest

end

mutual

/-- True of the values for which a literal can be written: their floats are finite, and no object
has two members of one name. -/
def isWritable : Json → Bool
  | float x => x.isFinite
  | arr items => areWritable items
  | obj members => decide (Members.names members).Nodup && membersAreWritable members
  | _ => true

def areWritable : List Json → Bool
  | [] => true
  | item :: rest => isWritable item && areWritable rest

def membersAreWritable : List (String × Json) → Bool
  | [] => true
  | (_, value) :: rest => isWritable value && membersAreWritable rest

end

theorem membersAreWritable_iff {members : List (String × Json)} :
    membersAreWritable members = true ↔ ∀ member ∈ members, member.2.isWritable = true := by
  induction members with
  | nil => simp [membersAreWritable]
  | cons member rest ih => simp [membersAreWritable, ih]

theorem isWritable_of_get? {members : Members Json} (h : membersAreWritable members = true)
    {name : String} {value : Json} (hg : Members.get? name members = some value) :
    value.isWritable = true :=
  membersAreWritable_iff.mp h _ (Members.mem_of_get? hg)

end Json

namespace InputValue

open Json (literal literals memberLiterals isWritable areWritable membersAreWritable)

mutual

/-- True of an input value without variables. -/
def isLiteral : InputValue → Bool
  | «variable» _ => false
  | list items => areLiteral items
  | object entries => entriesAreLiteral entries
  | _ => true

def areLiteral : List InputValue → Bool
  | [] => true
  | item :: rest => isLiteral item && areLiteral rest

def entriesAreLiteral : List (String × InputValue) → Bool
  | [] => true
  | (_, entry) :: rest => isLiteral entry && entriesAreLiteral rest

end

section Filling

variable (bindings : Members Json)

mutual

/-- The input value with the literals of their values in place of variables; nothing for a variable
without a value. -/
def filled? : InputValue → Option InputValue
  | «variable» name => (Members.get? name bindings).map literal
  | list items => some (.list (filledItems items))
  | object entries => some (.object (filledEntries entries))
  | value => some value

def filledItems : List InputValue → List InputValue
  | [] => []
  | item :: rest => (filled? item).getD .null :: filledItems rest

/-- Named entries, without those that stand for a variable without a value. -/
def filledEntries : List (String × InputValue) → List (String × InputValue)
  | [] => []
  | (name, entry) :: rest =>
    match filled? entry with
    | some value => (name, value) :: filledEntries rest
    | none => filledEntries rest

end

end Filling

section Literals

mutual

theorem isLiteral_literal : ∀ value : Json, (literal value).isLiteral = true
  | .null | .bool _ | .int _ | .float _ | .str _ => rfl
  | .arr items => areLiteral_literals items
  | .obj members => entriesAreLiteral_literals members

theorem areLiteral_literals : ∀ items : List Json, areLiteral (literals items) = true
  | [] => rfl
  | item :: rest => by
    rw [literals, areLiteral, isLiteral_literal item, areLiteral_literals rest, Bool.and_self]

theorem entriesAreLiteral_literals :
    ∀ members : List (String × Json), entriesAreLiteral (memberLiterals members) = true
  | [] => rfl
  | (name, value) :: rest => by
    rw [memberLiterals, entriesAreLiteral, isLiteral_literal value,
      entriesAreLiteral_literals rest, Bool.and_self]

end

variable (bindings : Members Json)

mutual

/-- The value of a literal is the value that it is the literal of. -/
theorem value?_literal : ∀ value : Json, value.isWritable = true →
    (literal value).value? bindings = some value
  | .null, _ | .bool _, _ | .int _, _ | .str _, _ => rfl
  | .float x, h => by
    rw [isWritable] at h
    rw [literal, value?, floatValue, if_pos h]
  | .arr items, h => by
    rw [isWritable] at h
    rw [literal, value?, itemValues_literals items h]
  | .obj members, h => by
    rw [isWritable, Bool.and_eq_true, decide_eq_true_eq] at h
    rw [literal, value?, entryValues_literals members h.2, Members.ofList_of_nodup h.1]

theorem itemValues_literals : ∀ items : List Json, areWritable items = true →
    itemValues bindings (literals items) = items
  | [], _ => rfl
  | item :: rest, h => by
    rw [areWritable, Bool.and_eq_true] at h
    rw [literals, itemValues, value?_literal item h.1, itemValues_literals rest h.2,
      Option.getD_some]

theorem entryValues_literals : ∀ members : List (String × Json),
    membersAreWritable members = true → entryValues bindings (memberLiterals members) = members
  | [], _ => rfl
  | (name, value) :: rest, h => by
    rw [membersAreWritable, Bool.and_eq_true] at h
    rw [memberLiterals, entryValues, value?_literal value h.1, entryValues_literals rest h.2]

end

end Literals

section Filled

variable {bindings : Members Json}

mutual

/-- No variable is left. -/
theorem isLiteral_filled? : ∀ {value literal : InputValue}, value.filled? bindings = some literal →
    literal.isLiteral = true
  | .variable name, _, h => by
    obtain ⟨value, -, rfl⟩ := Option.map_eq_some_iff.mp h
    exact isLiteral_literal value
  | .list items, _, h => Option.some.inj h ▸ areLiteral_filledItems items
  | .object entries, _, h => Option.some.inj h ▸ entriesAreLiteral_filledEntries entries
  | .null, _, h | .int _, _, h | .float _, _, h | .str _, _, h | .bool _, _, h | .enum _, _, h =>
    Option.some.inj h ▸ rfl

theorem areLiteral_filledItems :
    ∀ items : List InputValue, areLiteral (filledItems bindings items) = true
  | [] => rfl
  | item :: rest => by
    rw [filledItems, areLiteral, areLiteral_filledItems rest, Bool.and_true]
    cases hf : item.filled? bindings with
    | none => rfl
    | some literal => exact isLiteral_filled? hf

theorem entriesAreLiteral_filledEntries :
    ∀ entries : List (String × InputValue),
      entriesAreLiteral (filledEntries bindings entries) = true
  | [] => rfl
  | (name, entry) :: rest => by
    rw [filledEntries]
    cases hf : entry.filled? bindings with
    | none => exact entriesAreLiteral_filledEntries rest
    | some literal =>
      dsimp only
      rw [entriesAreLiteral, isLiteral_filled? hf, entriesAreLiteral_filledEntries rest,
        Bool.and_self]

end

variable (bindings) in
mutual

/-- What is left has the same value, whichever variables have values now. -/
theorem value?_filled (h : membersAreWritable bindings = true) (others : Members Json) :
    ∀ value : InputValue, (value.filled? bindings).bind (value? others) = value.value? bindings
  | .variable name => by
    rw [filled?, value?]
    cases hg : Members.get? name bindings with
    | none => rfl
    | some value => exact value?_literal others value (Json.isWritable_of_get? h hg)
  | .list items => by
    rw [filled?, Option.bind_some, value?, value?, itemValues_filled h others items]
  | .object entries => by
    rw [filled?, Option.bind_some, value?, value?, entryValues_filled h others entries]
  | .null | .int _ | .float _ | .str _ | .bool _ | .enum _ => rfl

theorem itemValues_filled (h : membersAreWritable bindings = true) (others : Members Json) :
    ∀ items : List InputValue,
      itemValues others (filledItems bindings items) = itemValues bindings items
  | [] => rfl
  | item :: rest => by
    rw [filledItems, itemValues, itemValues, itemValues_filled h others rest,
      ← value?_filled h others item]
    cases item.filled? bindings <;> rfl

theorem entryValues_filled (h : membersAreWritable bindings = true) (others : Members Json) :
    ∀ entries : List (String × InputValue),
      entryValues others (filledEntries bindings entries) = entryValues bindings entries
  | [] => rfl
  | (name, entry) :: rest => by
    have hentry := value?_filled h others entry
    rw [filledEntries, entryValues, ← hentry, ← entryValues_filled h others rest]
    cases entry.filled? bindings with
    | none => rfl
    | some literal =>
      dsimp only [Option.bind_some]
      rw [entryValues]

end

mutual

/-- The values that input values have can be written. -/
theorem isWritable_of_value? (h : membersAreWritable bindings = true) :
    ∀ {value : InputValue} {json : Json}, value.value? bindings = some json →
      json.isWritable = true
  | .variable _, _, hv => Json.isWritable_of_get? h hv
  | .float x, _, hv => by
    obtain rfl := Option.some.inj hv
    rw [floatValue]
    split
    · assumption
    · rfl
  | .list items, _, hv => Option.some.inj hv ▸ areWritable_itemValues h items
  | .object entries, _, hv => by
    obtain rfl := Option.some.inj hv
    rw [isWritable, Bool.and_eq_true, decide_eq_true_eq, Json.membersAreWritable_iff]
    refine ⟨Members.nodup_ofList _, fun member hm => ?_⟩
    obtain ⟨pair, hp, hvalue⟩ := Members.value_of_mem_ofList hm
    exact hvalue ▸ isWritable_entryValues h entries pair hp
  | .null, _, hv | .int _, _, hv | .str _, _, hv | .bool _, _, hv | .enum _, _, hv =>
    Option.some.inj hv ▸ rfl

theorem areWritable_itemValues (h : membersAreWritable bindings = true) :
    ∀ items : List InputValue, areWritable (itemValues bindings items) = true
  | [] => rfl
  | item :: rest => by
    rw [itemValues, areWritable, areWritable_itemValues h rest, Bool.and_true]
    cases hv : item.value? bindings with
    | none => rfl
    | some json => exact isWritable_of_value? h hv

theorem isWritable_entryValues (h : membersAreWritable bindings = true) :
    ∀ entries : List (String × InputValue),
      ∀ pair ∈ entryValues bindings entries, pair.2.isWritable = true
  | [] => fun _ hm => nomatch hm
  | (name, entry) :: rest => by
    rw [entryValues]
    cases hv : entry.value? bindings with
    | none => exact isWritable_entryValues h rest
    | some json =>
      intro pair hm
      rcases List.mem_cons.mp hm with rfl | hm
      · exact isWritable_of_value? h hv
      · exact isWritable_entryValues h rest pair hm

end

end Filled

end InputValue

end GraphQL
