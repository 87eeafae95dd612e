import GraphQL.Execution.Preparation
import GraphQL.Proofs.Printing

/-!
# Defaults restated

An argument that is left out takes its default, and introspection prints the default as a literal.
Writing this literal for the argument makes no difference to the resolver: the literal is read as
one input value, and the value of this is the default again.
-/

namespace GraphQL

namespace Members

variable {α : Type} {name other : String}

theorem get?_set (name : String) (value : α) (members : Members α) (other : String) :
    get? other (set name value members) =
      if other = name then some value else get? other members := by
  induction members with
  | nil => simp [set, get?, eq_comm]
  | cons member rest ih =>
    obtain ⟨key, old⟩ := member
    rw [set]
    split
    · next hkey =>
      subst hkey
      simp only [get?, eq_comm]
      split <;> rfl
    · next hkey =>
      simp only [get?, ih]
      by_cases ho : key = other
      · subst ho
        rw [if_pos rfl, if_neg hkey, if_pos rfl]
      · rw [if_neg ho, if_neg ho]

/-- Setting further members does not change one that is not among them. -/
theorem get?_foldl_set {pairs : List (String × α)} (h : ∀ pair ∈ pairs, pair.1 ≠ name)
    (start : Members α) :
    get? name (pairs.foldl (fun members pair => set pair.1 pair.2 members) start) =
      get? name start := by
  induction pairs generalizing start with
  | nil => rfl
  | cons pair rest ih =>
    obtain ⟨hpair, hrest⟩ := List.forall_mem_cons.mp h
    rw [List.foldl_cons, ih hrest, get?_set, if_neg hpair.symm]

/-- What is found after further members are set depends only on what was found before. -/
theorem get?_foldl_set_congr (pairs : List (String × α)) {a b : Members α}
    (h : get? name a = get? name b) :
    get? name (pairs.foldl (fun members pair => set pair.1 pair.2 members) a) =
      get? name (pairs.foldl (fun members pair => set pair.1 pair.2 members) b) := by
  induction pairs generalizing a b with
  | nil => exact h
  | cons pair rest ih => exact ih (by rw [get?_set, get?_set, h])

/-- A member that is set once, among others that are set. -/
theorem get?_ofList_middle {before after : List (String × α)} {value : α}
    (h : ∀ pair ∈ after, pair.1 ≠ name) (other : String) :
    get? other (ofList (before ++ (name, value) :: after)) =
      if other = name then some value else get? other (ofList (before ++ after)) := by
  simp only [ofList, List.foldl_append, List.foldl_cons]
  split
  · next ho =>
    subst ho
    rw [get?_foldl_set h, get?_set, if_pos rfl]
  · next ho => exact get?_foldl_set_congr after (by rw [get?_set, if_neg ho])

end Members

namespace InputValue

variable {bindings : Members Json}

theorem entryValues_append (entries others : List (String × InputValue)) :
    entryValues bindings (entries ++ others) =
      entryValues bindings entries ++ entryValues bindings others := by
  induction entries with
  | nil => rfl
  | cons entry rest ih =>
    obtain ⟨name, value⟩ := entry
    rw [List.cons_append, entryValues, entryValues, ih]
    cases value.value? bindings <;> rfl

theorem name_of_mem_entryValues {entries : List (String × InputValue)} {pair : String × Json}
    (h : pair ∈ entryValues bindings entries) : ∃ entry ∈ entries, entry.1 = pair.1 := by
  induction entries with
  | nil => cases h
  | cons entry rest ih =>
    obtain ⟨name, value⟩ := entry
    rw [entryValues] at h
    cases hv : value.value? bindings with
    | none =>
      rw [hv] at h
      obtain ⟨entry, he, hname⟩ := ih h
      exact ⟨entry, List.mem_cons_of_mem _ he, hname⟩
    | some json =>
      rw [hv] at h
      rcases List.mem_cons.mp h with rfl | h
      · exact ⟨(name, value), List.mem_cons_self, rfl⟩
      · obtain ⟨entry, he, hname⟩ := ih h
        exact ⟨entry, List.mem_cons_of_mem _ he, hname⟩

end InputValue

namespace Arguments

/-- The first default that is declared for a name. -/
def default? (definitions : List InputFieldDef) (name : String) : Option Json :=
  definitions.findSome? fun definition =>
    if definition.name = name then definition.defaultValue else none

theorem default?_of_find? {definitions : List InputFieldDef} {name : String}
    {input : InputFieldDef} {value : Json} (hf : Named.find? name definitions = some input)
    (hd : input.defaultValue = some value) : default? definitions name = some value := by
  rw [default?]
  induction definitions with
  | nil => cases hf
  | cons definition rest ih =>
    rw [List.findSome?_cons]
    by_cases hname : definition.name = name
    · obtain rfl : definition = input := by simpa [Named.find?, Named.name, hname] using hf
      rw [if_pos hname, hd]
    · rw [if_neg hname]
      exact ih (by simpa [Named.find?, Named.name, hname] using hf)

/-- One definition gives its default to the argument of its name, if this is missing. -/
theorem get?_withDefault (definition : InputFieldDef) (arguments : Members Json) (name : String) :
    Members.get? name (withDefaults [definition] arguments) = (Members.get? name arguments).or
      (if definition.name = name then definition.defaultValue else none) := by
  rw [withDefaults, List.foldl_cons, List.foldl_nil]
  cases hd : definition.defaultValue with
  | none => simp
  | some value =>
    dsimp only
    by_cases hname : definition.name = name
    · subst hname
      rw [if_pos rfl, Members.contains]
      cases hg : Members.get? definition.name arguments with
      | none => simp [Members.get?_set]
      | some given => simpa using hg
    · rw [if_neg hname, Option.or_none]
      split
      · rfl
      · rw [Members.get?_set, if_neg (Ne.symm hname)]

/-- An argument that is missing has its declared default. -/
theorem get?_withDefaults (definitions : List InputFieldDef) (arguments : Members Json)
    (name : String) : Members.get? name (withDefaults definitions arguments) =
      (Members.get? name arguments).or (default? definitions name) := by
  induction definitions generalizing arguments with
  | nil => exact Option.or_none.symm
  | cons definition rest ih =>
    have hdefault : default? (definition :: rest) name =
        (if definition.name = name then definition.defaultValue else none).or
          (default? rest name) := by
      rw [default?, List.findSome?_cons]
      cases (if definition.name = name then definition.defaultValue else none) <;> rfl
    calc Members.get? name (withDefaults (definition :: rest) arguments)
        = Members.get? name (withDefaults rest (withDefaults [definition] arguments)) := rfl
      _ = (Members.get? name (withDefaults [definition] arguments)).or (default? rest name) := ih _
      _ = (Members.get? name arguments).or (default? (definition :: rest) name) := by
          rw [get?_withDefault, hdefault, Option.or_assoc]

theorem ne_of_mem_entryValues {bindings : Members Json} {name : String}
    {supplied : List (String × InputValue)} (hn : ∀ entry ∈ supplied, entry.1 ≠ name) :
    ∀ pair ∈ InputValue.entryValues bindings supplied, pair.1 ≠ name := by
  intro pair hp
  obtain ⟨entry, he, hname⟩ := InputValue.name_of_mem_entryValues hp
  exact hname ▸ hn entry he

/-- An argument that is left out has its default. -/
theorem get?_build_omitted {definitions : List InputFieldDef} {bindings : Members Json}
    {name : String} {value : Json} {supplied : List (String × InputValue)}
    (hd : default? definitions name = some value) (hn : ∀ entry ∈ supplied, entry.1 ≠ name) :
    Members.get? name (build definitions supplied bindings) = some value := by
  have hmissing : Members.get? name (Members.ofList (InputValue.entryValues bindings supplied)) =
      none := Members.get?_foldl_set (ne_of_mem_entryValues hn) []
  rw [build, get?_withDefaults, hmissing, hd, Option.none_or]

/-- An argument that is written as its default has the value that it has when it is left out, and
so have the others. -/
theorem get?_build_restated {definitions : List InputFieldDef} {bindings : Members Json}
    {name : String} {value : Json} {written : InputValue}
    {before after : List (String × InputValue)} (hd : default? definitions name = some value)
    (hw : written.value? bindings = some value)
    (hn : ∀ entry ∈ before ++ after, entry.1 ≠ name) (other : String) :
    Members.get? other (build definitions (before ++ (name, written) :: after) bindings) =
      Members.get? other (build definitions (before ++ after) bindings) := by
  have hwritten : InputValue.entryValues bindings ((name, written) :: after) =
      (name, value) :: InputValue.entryValues bindings after := by
    rw [InputValue.entryValues, hw]
  have hafter : ∀ pair ∈ InputValue.entryValues bindings after, pair.1 ≠ name :=
    ne_of_mem_entryValues fun entry he => hn entry (List.mem_append_right _ he)
  by_cases ho : other = name
  · subst ho
    rw [get?_build_omitted hd hn, build, get?_withDefaults, InputValue.entryValues_append, hwritten,
      Members.get?_ofList_middle hafter, if_pos rfl, Option.some_or]
  · rw [build, build, get?_withDefaults, get?_withDefaults, InputValue.entryValues_append,
      InputValue.entryValues_append, hwritten, Members.get?_ofList_middle hafter, if_neg ho]

end Arguments

namespace Introspection

open Grammar (Reads)

/-- **Printed defaults read back.** The literal that introspection prints for a default without
floats is read as one input value and no other, whose value is the default, whatever the variables
are. No two defaults are printed alike. An argument for which the printed literal is written has the
value that it has when it is left out, which is the default, and so have all other arguments. -/
theorem default_restated (value : Json) (h : value.isSpellable = true) :
    (∃! written, Reads (literal value) written) ∧
    (∀ written, Reads (literal value) written → ∀ bindings,
      written.value? bindings = some value) ∧
    (∀ other : Json, other.isSpellable = true → literal other = literal value → other = value) ∧
    ∀ (env : Environment) (field : FieldDef) (input : InputFieldDef) (node : FieldNode)
      (path : Path) (written : InputValue) (before after : List (String × InputValue)),
      Named.find? input.name field.arguments = some input → input.defaultValue = some value →
      (∀ entry ∈ before ++ after, entry.1 ≠ input.name) → Reads (literal value) written →
        (describeInput env.schema input).member? "defaultValue" = some (.str (literal value)) ∧
        (Preparation.arguments env field { node with arguments := before ++ after } path).get?
          input.name = some value ∧
        ∀ name, (Preparation.arguments env field
            { node with arguments := before ++ (input.name, written) :: after } path).get? name =
          (Preparation.arguments env field { node with arguments := before ++ after } path).get?
            name := by
  refine ⟨⟨value.literal, Grammar.reads_literal h, fun written hr =>
      hr.unique (Grammar.reads_literal h)⟩,
    fun written hr bindings => Grammar.value?_of_reads h hr bindings,
    fun other ho he => Grammar.literal_inj h ho he, ?_⟩
  intro env field input node path written before after hf hd hn hr
  have hdefault := Arguments.default?_of_find? hf hd
  refine ⟨?_, Arguments.get?_build_omitted hdefault hn, fun name =>
    Arguments.get?_build_restated hdefault (Grammar.value?_of_reads h hr _) hn name⟩
  simp [describeInput, hd, Json.member?, Members.get?, Json.ofText?]

end Introspection

namespace Sample

/-- A default with brackets, quotes and a control character in its strings, and with strings that
look like other values. -/
def awkward : Json :=
  .obj [("text", .str "\"\x7d, \x7b\\\n\u0001"),
    ("values", .arr [.int (-9223372036854775808), .arr [], .str "", .str "null", .null])]

def filter : InputFieldDef where
  name := "filter"
  type := .late "Filter"
  defaultValue := some awkward

def search : FieldDef where
  name := "search"
  type := .late "String"
  arguments := [{ name := "limit", type := .late "Int" }, filter]

def searching : Environment where
  schema := {}
  document := {}
  registry := {}
  config := {}
  context := {}

end Sample

namespace Introspection

open Grammar (Reads)
open Sample

/-- The awkward default is read back, and may be written beside another argument. -/
theorem awkward_restated :
    literal awkward = "\x7btext: \"\\\"\x7d, \x7b\\\\\\n\\u0001\", " ++
      "values: [-9223372036854775808, [], \"\", \"null\", null]\x7d" ∧
    (∃! written, Reads (literal awkward) written) ∧
    ∀ name, (Preparation.arguments searching search
        { name := "search", arguments := [("limit", .int 3), ("filter", awkward.literal)] }
        []).get? name =
      (Preparation.arguments searching search
        { name := "search", arguments := [("limit", .int 3)] } []).get? name := by
  have hrestated := default_restated awkward (by decide)
  refine ⟨by decide +kernel, hrestated.1, ?_⟩
  exact (hrestated.2.2.2 searching search filter { name := "search" } [] awkward.literal
    [("limit", .int 3)] [] rfl rfl (by decide) (Grammar.reads_literal (by decide))).2.2

end Introspection

end GraphQL
