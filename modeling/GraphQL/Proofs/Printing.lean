import GraphQL.Introspection.Description
import GraphQL.Proofs.Grammar
import GraphQL.Proofs.Literals

/-!
# Printed values read back

What introspection prints for a default value is a literal of the grammar of values, and since this
is unambiguous the literal is read as one value only: as the one that was printed. Every part of it
is read as it was printed wherever a value may end, that is at a comma, at a closing bracket or
brace, or at the end of the text. Values without floats are considered, with integers of 64 bits and
with names for the members of objects.
-/

namespace GraphQL

namespace Json

open Grammar (isName)

mutual

/-- True of the values without floats whose integers have 64 bits and whose objects have distinct
names as keys. -/
def isSpellable : Json → Bool
  | int i => decide (minInt64 ≤ i ∧ i ≤ maxInt64)
  | float _ => false
  | arr items => areSpellable items
  | obj members => decide (Members.names members).Nodup && membersAreSpellable members
  | _ => true

def areSpellable : List Json → Bool
  | [] => true
  | item :: rest => isSpellable item && areSpellable rest

def membersAreSpellable : List (String × Json) → Bool
  | [] => true
  | (name, value) :: rest => isName name && isSpellable value && membersAreSpellable rest

end

mutual

theorem isWritable_of_isSpellable : ∀ value : Json, value.isSpellable = true →
    value.isWritable = true
  | .null, _ | .bool _, _ | .int _, _ | .str _, _ => rfl
  | .float _, h => nomatch h
  | .arr items, h => areWritable_of_areSpellable items h
  | .obj members, h => by
    rw [isSpellable, Bool.and_eq_true] at h
    rw [isWritable, h.1, membersAreWritable_of_spellable members h.2, Bool.and_self]

theorem areWritable_of_areSpellable : ∀ items : List Json, areSpellable items = true →
    areWritable items = true
  | [], _ => rfl
  | item :: rest, h => by
    rw [areSpellable, Bool.and_eq_true] at h
    rw [areWritable, isWritable_of_isSpellable item h.1, areWritable_of_areSpellable rest h.2,
      Bool.and_self]

theorem membersAreWritable_of_spellable : ∀ members : List (String × Json),
    membersAreSpellable members = true → membersAreWritable members = true
  | [], _ => rfl
  | (name, value) :: rest, h => by
    rw [membersAreSpellable, Bool.and_eq_true, Bool.and_eq_true] at h
    rw [membersAreWritable, isWritable_of_isSpellable value h.1.2,
      membersAreWritable_of_spellable rest h.2, Bool.and_self]

end

end Json

namespace Grammar

/-- A value may end here. -/
def Closes (text : List Char) : Prop := ∀ c ∈ text.head?, c = ',' ∨ c = ']' ∨ c = '\x7d'

variable {text text' rest : List Char}

theorem Closes.stops (h : Closes rest) {kind : Char → Bool} (hcomma : kind ',' = false)
    (hbracket : kind ']' = false) (hbrace : kind '\x7d' = false) : Stops kind rest := by
  intro c hc
  rcases h c hc with rfl | rfl | rfl
  · exact hcomma
  · exact hbracket
  · exact hbrace

theorem closes_cons {c : Char} (h : c = ',' ∨ c = ']' ∨ c = '\x7d') : Closes (c :: rest) := by
  intro d hd
  obtain rfl := Option.some.inj hd
  exact h

section Words

/-- A name is one token unless it goes on. -/
theorem lexeme_name {name : String} (hn : isName name = true) (hr : Stops isNamePart rest) :
    Lexeme (name.toList ++ rest) (.name name) rest := by
  unfold isName at hn
  split at hn
  · next c chars hchars =>
    rw [Bool.and_eq_true, List.all_eq_true] at hn
    have hname : name = String.ofList (c :: chars) := by rw [← hchars, String.ofList_toList]
    rw [hchars, hname]
    exact .name (opening?_of_isNameStart hn.1) ⟨rfl, hn.2, hr⟩
  · cases hn

end Words

section Integers

open Json (intChars)

theorem intChars_eq (i : Int) :
    intChars i = (if i < 0 then ['-'] else []) ++ Nat.toDigits 10 i.natAbs := by
  cases i with
  | ofNat n => simp [intChars, toString, Int.repr]
  | negSucc n => simp [intChars, toString, Int.repr]

/-- The decimal digits of a number other than zero do not start with a zero. -/
theorem toDigits_leading (n : Nat) (h : (Nat.toDigits 10 n).head? = some '0') : n = 0 := by
  induction n using Nat.base_induction 10 (by decide) with
  | single m hm =>
    rw [Nat.toDigits_of_lt_base hm] at h
    revert h
    revert m
    decide
  | digit m k hk hm ih =>
    rw [← Nat.toDigits_append_toDigits (by decide) hm hk] at h
    have hhead := ih (by simpa [List.head?_append, Nat.toDigits_ne_nil] using h)
    omega

theorem digitsValue_toDigits (n : Nat) : Decimal.digitsValue (Nat.toDigits 10 n) = n := by
  rw [Decimal.digitsValue, ← Nat.ofDigitChars_eq_foldl, Nat.ofDigitChars_ten_toDigits]

/-- An integer as it is printed. -/
def ofInt (i : Int) : Number where
  negative := decide (i < 0)
  whole := Nat.toDigits 10 i.natAbs
  fraction := none
  exponent := none

theorem value?_ofInt {i : Int} (hmin : Json.minInt64 ≤ i) (hmax : i ≤ Json.maxInt64) :
    (ofInt i).value? = some (.int i) := by
  have hsigned : signed (decide (i < 0)) (Nat.toDigits 10 i.natAbs) = i := by
    rw [signed, digitsValue_toDigits]
    by_cases hi : i < 0
    · rw [decide_eq_true hi, if_pos rfl]
      omega
    · rw [decide_eq_false hi, if_neg Bool.false_ne_true]
      omega
  simp only [Number.value?, ofInt, hsigned]
  exact if_pos ⟨hmin, hmax⟩

theorem sign_int (i : Int) (hd : Digits (Nat.toDigits 10 i.natAbs ++ rest) (ofInt i).whole rest) :
    Sign (intChars i ++ rest) (ofInt i).negative (Nat.toDigits 10 i.natAbs ++ rest) := by
  rw [intChars_eq, ofInt]
  by_cases hi : i < 0
  · rw [if_pos hi, decide_eq_true hi]
    exact .minus
  · rw [if_neg hi, decide_eq_false hi]
    refine .none fun c hc => beq_eq_false_iff_ne.mpr ?_
    obtain ⟨first, others, htext, hdigit⟩ := hd.eq_cons
    rw [List.nil_append, htext] at hc
    obtain rfl : first = c := Option.some.inj hc
    rintro rfl
    exact absurd hdigit (by decide)

/-- A printed integer is one token unless it goes on. -/
theorem lexeme_int (i : Int) (hr : Stops continuesNumber rest) :
    Lexeme (intChars i ++ rest) (.number (ofInt i)) rest := by
  have hall : ∀ c ∈ Nat.toDigits 10 i.natAbs, c.isDigit = true :=
    fun c hc => Nat.isDigit_of_mem_toDigits (by decide) (by decide) hc
  have hdigits : Digits (Nat.toDigits 10 i.natAbs ++ rest) (ofInt i).whole rest :=
    ⟨⟨rfl, hall, hr.imp fun c hc => by simp [continuesNumber, hc]⟩, Nat.toDigits_ne_nil⟩
  have hleading : (ofInt i).whole.head? = some '0' → (ofInt i).whole = ['0'] := by
    intro hzero
    have hi : i.natAbs = 0 := toDigits_leading _ hzero
    rw [ofInt, hi]
    rfl
  have hpoint : Stops (· == '.') rest :=
    hr.imp fun c hc => by simp [continuesNumber, eq_of_beq hc]
  have hmark : Stops isExponentMark rest := by
    refine hr.imp fun c hc => ?_
    rw [isExponentMark, Bool.or_eq_true, beq_iff_eq, beq_iff_eq] at hc
    rcases hc with rfl | rfl <;> rfl
  exact Numeral.lexeme ⟨sign_int i hdigits, hdigits, hleading, .none hpoint, .none hmark, hr⟩

end Integers

section Texts

open Json (escapedChar stringChars hexDigit hexValue hexQuad unitChar)

theorem hexValue_hexDigit : ∀ n < 16, hexValue (hexDigit n) = some n := by decide

/-- A control character is given by its number, in four digits. -/
theorem escape_control {c : Char} (h : c.toNat < 0x20) :
    Escape ('u' :: '0' :: '0' :: hexDigit (c.toNat / 16) :: hexDigit (c.toNat % 16) :: rest) c
      rest := by
  have hq : hexQuad '0' '0' (hexDigit (c.toNat / 16)) (hexDigit (c.toNat % 16)) =
      some c.toNat := by
    have hzero : hexValue '0' = some 0 := by decide
    simp only [hexQuad, hzero, hexValue_hexDigit _ (by omega : c.toNat / 16 < 16),
      hexValue_hexDigit _ (by omega : c.toNat % 16 < 16), Option.bind_eq_bind, Option.bind_some,
      Option.pure_def, Option.some.injEq]
    omega
  refine .unit hq ?_
  rw [unitChar, if_neg (by simp; omega), Char.ofNat_toNat]

/-- Each character is read as it was written, escaped or not. -/
theorem quoted_escapedChar (c : Char) {chars : List Char} (h : Quoted text chars rest) :
    Quoted (escapedChar c ++ text) (c :: chars) rest := by
  unfold escapedChar
  split
  -- the seven characters that have a short escape
  · exact .escape (.short rfl) h
  · exact .escape (.short rfl) h
  · exact .escape (.short rfl) h
  · exact .escape (.short rfl) h
  · exact .escape (.short rfl) h
  · exact .escape (.short rfl) h
  · exact .escape (.short rfl) h
  · next hquote hbackslash _ _ hfeed hreturn _ =>
    split
    · next hcontrol => exact .escape (escape_control hcontrol) h
    · exact .plain hquote hbackslash (by simpa [isLineEnd] using ⟨hfeed, hreturn⟩) h

theorem quoted_escaped (chars : List Char) :
    Quoted (chars.flatMap escapedChar ++ '"' :: rest) chars rest := by
  induction chars with
  | nil => exact .close
  | cons c chars ih =>
    rw [List.flatMap_cons, List.append_assoc]
    exact quoted_escapedChar c ih

/-- What is written for a character does not start with a quote. -/
theorem escapedChar_eq_cons (c : Char) : ∃ first others, escapedChar c = first :: others ∧
    first ≠ '"' := by
  unfold escapedChar
  split
  any_goals exact ⟨_, _, rfl, by decide⟩
  next hquote _ _ _ _ _ _ =>
    split
    · exact ⟨_, _, rfl, by decide⟩
    · exact ⟨_, _, rfl, hquote⟩

/-- A printed string is one token unless a further quote follows. -/
theorem lexeme_string (value : String) (hr : Stops (· == '"') rest) :
    Lexeme (stringChars value ++ rest) (.string value) rest := by
  have hchars : stringChars value ++ rest =
      '"' :: (value.toList.flatMap escapedChar ++ '"' :: rest) := by simp [stringChars]
  -- with another quote, an empty string would open one in triple quotes
  have hempty : ¬ ['"', '"'] <+: value.toList.flatMap escapedChar ++ '"' :: rest := by
    cases value.toList with
    | nil =>
      rintro ⟨after, hafter⟩
      have hrest : rest = '"' :: after := (List.cons.inj hafter).2.symm
      exact absurd (hr '"' (by rw [hrest]; rfl)) (by decide)
    | cons c chars =>
      obtain ⟨first, others, hfirst, hne⟩ := escapedChar_eq_cons c
      rw [List.flatMap_cons, hfirst]
      rintro ⟨after, hafter⟩
      exact hne (List.cons.inj hafter).1.symm
  have hlexeme := Lexeme.string hempty (quoted_escaped value.toList)
  rw [String.ofList_toList] at hlexeme
  rw [hchars]
  exact hlexeme

end Texts

/-- Wherever a value may end, the text is read as the phrase. -/
def Spells (text : List Char) (phrase : Phrase) : Prop :=
  ∀ (rest : List Char) (more : List Token), Closes rest → Tokens rest more →
    ∃ tokens, Tokens (text ++ rest) tokens ∧ Derives phrase tokens more

section Phrases

variable {name : String} {item : InputValue} {items : List InputValue}
  {entries : List (String × InputValue)}

/-- A value of one token. -/
theorem spells_token {token : Token} {value : InputValue}
    (hl : ∀ {rest}, Closes rest → Lexeme (text ++ rest) token rest)
    (hd : ∀ {more}, Derives (.value value) (token :: more) more) : Spells text (.value value) :=
  fun _ more hc ht => ⟨token :: more, .token (hl hc) ht, hd⟩

theorem spells_word (name : String) (hn : isName name = true) :
    Spells name.toList (.value (nameValue name)) :=
  spells_token (fun hc => lexeme_name hn (hc.stops rfl rfl rfl)) .name

theorem spells_noItems : Spells [']'] (.items []) :=
  fun _ more _ ht => ⟨.punctuator .rightBracket :: more, .token (.punctuator rfl) ht, .noItems⟩

theorem spells_lastItem (h : Spells text (.value item)) :
    Spells (text ++ [']']) (.items [item]) := by
  intro rest more hc ht
  have hclose : Tokens (']' :: rest) (.punctuator .rightBracket :: more) :=
    .token (.punctuator rfl) ht
  obtain ⟨tokens, htokens, hd⟩ := h _ _ (closes_cons (.inr (.inl rfl))) hclose
  rw [List.append_assoc]
  exact ⟨tokens, htokens, .item hd .noItems⟩

theorem spells_item (h : Spells text (.value item)) (hs : Spells text' (.items items)) :
    Spells (text ++ ',' :: ' ' :: text') (.items (item :: items)) := by
  intro rest more hc ht
  obtain ⟨after, hafter, hds⟩ := hs rest more hc ht
  have hcomma : Tokens (',' :: ' ' :: text' ++ rest) after := .ignored rfl (.ignored rfl hafter)
  obtain ⟨tokens, htokens, hd⟩ := h _ _ (closes_cons (.inl rfl)) hcomma
  rw [List.append_assoc]
  exact ⟨tokens, htokens, .item hd hds⟩

theorem spells_list (h : Spells text (.items items)) :
    Spells ('[' :: text) (.value (.list items)) := by
  intro rest more hc ht
  obtain ⟨tokens, htokens, hd⟩ := h rest more hc ht
  exact ⟨.punctuator .leftBracket :: tokens, .token (.punctuator rfl) htokens, .list hd⟩

theorem spells_noEntries : Spells ['\x7d'] (.entries []) :=
  fun _ more _ ht => ⟨.punctuator .rightBrace :: more, .token (.punctuator rfl) ht, .noEntries⟩

/-- An entry is written as its name, a colon and its value. -/
theorem tokens_entry (hn : isName name = true) {tokens : List Token} (h : Tokens text tokens) :
    Tokens (name.toList ++ ':' :: ' ' :: text) (.name name :: .punctuator .colon :: tokens) := by
  have hcolon : Stops isNamePart (':' :: ' ' :: text) := by
    intro c hc
    obtain rfl := Option.some.inj hc
    rfl
  exact .token (lexeme_name hn hcolon) (.token (.punctuator rfl) (.ignored rfl h))

theorem spells_lastEntry (hn : isName name = true) (h : Spells text (.value item)) :
    Spells (name.toList ++ ':' :: ' ' :: text ++ ['\x7d']) (.entries [(name, item)]) := by
  intro rest more hc ht
  have hclose : Tokens ('\x7d' :: rest) (.punctuator .rightBrace :: more) :=
    .token (.punctuator rfl) ht
  obtain ⟨tokens, htokens, hd⟩ := h _ _ (closes_cons (.inr (.inr rfl))) hclose
  refine ⟨_, ?_, .entry hd .noEntries⟩
  simpa using tokens_entry hn htokens

theorem spells_entry (hn : isName name = true) (h : Spells text (.value item))
    (hs : Spells text' (.entries entries)) :
    Spells (name.toList ++ ':' :: ' ' :: text ++ ',' :: ' ' :: text')
      (.entries ((name, item) :: entries)) := by
  intro rest more hc ht
  obtain ⟨after, hafter, hds⟩ := hs rest more hc ht
  have hcomma : Tokens (',' :: ' ' :: text' ++ rest) after := .ignored rfl (.ignored rfl hafter)
  obtain ⟨tokens, htokens, hd⟩ := h _ _ (closes_cons (.inl rfl)) hcomma
  refine ⟨_, ?_, .entry hd hds⟩
  simpa using tokens_entry hn htokens

theorem spells_object (h : Spells text (.entries entries)) :
    Spells ('\x7b' :: text) (.value (.object entries)) := by
  intro rest more hc ht
  obtain ⟨tokens, htokens, hd⟩ := h rest more hc ht
  exact ⟨.punctuator .leftBrace :: tokens, .token (.punctuator rfl) htokens, .object hd⟩

end Phrases

section Literals

open Introspection (literalChars literalItems literalEntries)
open Json (isSpellable areSpellable membersAreSpellable)

mutual

/-- What is printed for a value is read as its literal. -/
theorem spells_literal : ∀ value : Json, value.isSpellable = true →
    Spells (literalChars value) (.value (Json.literal value))
  | .null, _ => spells_word "null" rfl
  | .bool true, _ => spells_word "true" rfl
  | .bool false, _ => spells_word "false" rfl
  | .int i, h => by
    have hi := of_decide_eq_true h
    exact spells_token (fun hc => lexeme_int i (hc.stops rfl rfl rfl))
      (.number (value?_ofInt hi.1 hi.2))
  | .str text, _ => spells_token (fun hc => lexeme_string text (hc.stops rfl rfl rfl)) .string
  | .arr items, h => spells_list (spells_items items h)
  | .obj members, h => by
    rw [isSpellable, Bool.and_eq_true] at h
    exact spells_object (spells_entries members h.2)

theorem spells_items : ∀ items : List Json, areSpellable items = true →
    Spells (literalItems items ++ [']']) (.items (Json.literals items))
  | [], _ => spells_noItems
  | [item], h => by
    rw [areSpellable, Bool.and_eq_true] at h
    exact spells_lastItem (spells_literal item h.1)
  | item :: other :: rest, h => by
    rw [areSpellable, Bool.and_eq_true] at h
    have hrest := spells_items (other :: rest) h.2
    have hitem := spells_item (spells_literal item h.1) hrest
    simpa [literalItems, Json.literals] using hitem

theorem spells_entries : ∀ members : List (String × Json), membersAreSpellable members = true →
    Spells (literalEntries members ++ ['\x7d']) (.entries (Json.memberLiterals members))
  | [], _ => spells_noEntries
  | [(name, value)], h => by
    rw [membersAreSpellable, Bool.and_eq_true, Bool.and_eq_true] at h
    exact spells_lastEntry h.1.1 (spells_literal value h.1.2)
  | (name, value) :: other :: rest, h => by
    rw [membersAreSpellable, Bool.and_eq_true, Bool.and_eq_true] at h
    have hrest := spells_entries (other :: rest) h.2
    have hentry := spells_entry h.1.1 (spells_literal value h.1.2) hrest
    simpa [literalEntries, Json.memberLiterals] using hentry

end

/-- What introspection prints for a value is a literal. -/
theorem reads_literal {value : Json} (h : value.isSpellable = true) :
    Reads (Introspection.literal value) value.literal := by
  obtain ⟨tokens, htokens, hd⟩ := spells_literal value h [] [] nofun .nil
  rw [List.append_nil] at htokens
  refine ⟨tokens, ?_, hd⟩
  rw [Introspection.literal, String.toList_ofList]
  exact htokens

/-- However the literal is read, its value is the one that was printed. -/
theorem value?_of_reads {value : Json} (h : value.isSpellable = true) {written : InputValue}
    (hr : Reads (Introspection.literal value) written) (bindings : Members Json) :
    written.value? bindings = some value := by
  obtain rfl := hr.unique (reads_literal h)
  exact InputValue.value?_literal bindings value (Json.isWritable_of_isSpellable value h)

/-- No two values are printed alike. -/
theorem literal_inj {value other : Json} (h : value.isSpellable = true)
    (ho : other.isSpellable = true)
    (he : Introspection.literal other = Introspection.literal value) : other = value :=
  Option.some.inj ((value?_of_reads ho (reads_literal ho) []).symm.trans
    (value?_of_reads h (he ▸ reads_literal ho) []))

end Literals

end Grammar

end GraphQL
