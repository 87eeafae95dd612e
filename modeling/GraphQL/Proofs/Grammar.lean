import Mathlib.Data.List.Basic
import GraphQL.Json.Reading
import GraphQL.Request.Arguments

/-!
# How values are written

The grammar of the values that a request writes down: a text is a row of tokens with blanks, commas
and comments between them, and the tokens make up a value. A token ends where what follows can no
longer belong to it. Strings have escapes and may stand in triple quotes, in which case they lose
their common indentation. The grammar is unambiguous: a text is read as one value at most.

All of it is stated by what a text starts with and what is left of it.
-/

namespace GraphQL.Grammar

/-! ## Characters -/

def isLineEnd (c : Char) : Bool := c == '\n' || c == '\r'

def isBlank (c : Char) : Bool := c == ' ' || c == '\t'

def isNameStart (c : Char) : Bool := c.isAlpha || c == '_'

def isNamePart (c : Char) : Bool := c.isAlphanum || c == '_'

/-- A text that is a name. -/
def isName (text : String) : Bool :=
  match text.toList with
  | c :: rest => isNameStart c && rest.all isNamePart
  | [] => false

inductive Punctuator where
  | bang
  | dollar
  | ampersand
  | leftParenthesis
  | rightParenthesis
  | colon
  | equals
  | at
  | leftBracket
  | rightBracket
  | leftBrace
  | bar
  | rightBrace

/-- What a character can open. -/
inductive Opening where
  | punctuator (mark : Punctuator)
  | spread
  | name
  | number
  | string
  | ignored
  | comment

/-- What is opened by a character. Between tokens the byte order mark, blanks, line ends and commas
mean nothing. -/
def opening? : Char → Option Opening
  | '!' => some (.punctuator .bang)
  | '$' => some (.punctuator .dollar)
  | '&' => some (.punctuator .ampersand)
  | '(' => some (.punctuator .leftParenthesis)
  | ')' => some (.punctuator .rightParenthesis)
  | ':' => some (.punctuator .colon)
  | '=' => some (.punctuator .equals)
  | '@' => some (.punctuator .at)
  | '[' => some (.punctuator .leftBracket)
  | ']' => some (.punctuator .rightBracket)
  | '\x7b' => some (.punctuator .leftBrace)
  | '|' => some (.punctuator .bar)
  | '\x7d' => some (.punctuator .rightBrace)
  | '.' => some .spread
  | '-' => some .number
  | '"' => some .string
  | '#' => some .comment
  | '\uFEFF' | ' ' | '\t' | '\n' | '\r' | ',' => some .ignored
  | c => if isNameStart c then some .name else if c.isDigit then some .number else none

theorem opening?_of_isNameStart {c : Char} (h : isNameStart c = true) :
    opening? c = some .name := by
  unfold opening?
  split <;> first | exact absurd h (by decide) | exact if_pos h

theorem isNameStart_of_isDigit {c : Char} (h : c.isDigit = true) : isNameStart c = false := by
  have hnine : c.toNat ≤ '9'.toNat := (Char.isDigit_iff_toNat.mp h).2
  have hbelow : ∀ letter : Char, '9'.toNat < letter.toNat → ¬ c.val ≥ letter.val := by
    intro letter hletter hle
    have hchar : letter.toNat ≤ c.toNat := UInt32.le_iff_toNat_le.mp hle
    omega
  have hupper : c.isUpper = false :=
    decide_eq_false fun hrange => hbelow 'A' (by decide) hrange.1
  have hlower : c.isLower = false := by
    change (decide (c.val ≥ 'a'.val) && decide (c.val ≤ 'z'.val)) = false
    rw [decide_eq_false (hbelow 'a' (by decide)), Bool.false_and]
  have halpha : c.isAlpha = false := by
    change (c.isUpper || c.isLower) = false
    rw [hupper, hlower, Bool.or_self]
  have hunderscore : (c == '_') = false := by
    refine beq_eq_false_iff_ne.mpr ?_
    rintro rfl
    exact absurd h (by decide)
  rw [isNameStart, halpha, hunderscore, Bool.or_self]

theorem opening?_of_isDigit {c : Char} (h : c.isDigit = true) : opening? c = some .number := by
  have hname := isNameStart_of_isDigit h
  unfold opening?
  split <;> first | exact absurd h (by decide) | rw [hname]
  exact if_pos h

/-- The text does not start with a character of this kind. -/
def Stops (kind : Char → Bool) (text : List Char) : Prop := ∀ c ∈ text.head?, kind c = false

theorem Stops.imp {kind other : Char → Bool} {text : List Char} (h : Stops other text)
    (hk : ∀ c, kind c = true → other c = true) : Stops kind text := by
  intro c hc
  by_contra hkind
  rw [Bool.not_eq_false] at hkind
  exact absurd (hk c hkind) (by simp [h c hc])

/-- All characters of a kind at the front of a text, and what follows them. -/
structure Span (kind : Char → Bool) (text chars rest : List Char) : Prop where
  split : text = chars ++ rest
  all : ∀ c ∈ chars, kind c = true
  stops : Stops kind rest

theorem Span.unique {kind : Char → Bool} {text chars rest chars' rest' : List Char}
    (h : Span kind text chars rest) (h' : Span kind text chars' rest') :
    chars = chars' ∧ rest = rest' := by
  obtain ⟨rfl, hall, hstops⟩ := h
  obtain ⟨hsplit, hall', hstops'⟩ := h'
  induction chars generalizing chars' with
  | nil =>
    cases chars' with
    | nil => exact ⟨rfl, hsplit⟩
    | cons c chars' =>
      subst hsplit
      exact absurd (hall' c List.mem_cons_self) (by simp [hstops c rfl])
  | cons c chars ih =>
    cases chars' with
    | nil =>
      subst hsplit
      exact absurd (hall c List.mem_cons_self) (by simp [hstops' c rfl])
    | cons c' chars' =>
      obtain ⟨rfl, htail⟩ := List.cons.inj hsplit
      obtain ⟨rfl, rfl⟩ := ih (fun d hd => hall d (List.mem_cons_of_mem _ hd)) htail
        fun d hd => hall' d (List.mem_cons_of_mem _ hd)
      exact ⟨rfl, rfl⟩

/-! ## Numbers -/

/-- A number as it is written. -/
structure Number where
  negative : Bool
  whole : List Char
  fraction : Option (List Char)
  exponent : Option Int

/-- A row of digits. -/
structure Digits (text digits rest : List Char) : Prop where
  span : Span Char.isDigit text digits rest
  nonempty : digits ≠ []

inductive Sign : List Char → Bool → List Char → Prop where
  | minus {rest : List Char} : Sign ('-' :: rest) true rest
  | none {rest : List Char} (h : Stops (· == '-') rest) : Sign rest false rest

/-- The sign of an exponent, which may be a plus. -/
inductive ExponentSign : List Char → Bool → List Char → Prop where
  | plus {rest : List Char} : ExponentSign ('+' :: rest) false rest
  | minus {rest : List Char} : ExponentSign ('-' :: rest) true rest
  | none {rest : List Char} (h : Stops (fun c => c == '+' || c == '-') rest) :
      ExponentSign rest false rest

inductive Fraction : List Char → Option (List Char) → List Char → Prop where
  | some {text digits rest : List Char} (h : Digits text digits rest) :
      Fraction ('.' :: text) (some digits) rest
  | none {rest : List Char} (h : Stops (· == '.') rest) : Fraction rest none rest

def isExponentMark (c : Char) : Bool := c == 'e' || c == 'E'

def signed (negative : Bool) (digits : List Char) : Int :=
  if negative then -(Decimal.digitsValue digits : Int) else Decimal.digitsValue digits

inductive Exponent : List Char → Option Int → List Char → Prop where
  | some {mark : Char} {text unsigned digits rest : List Char} {negative : Bool}
      (hm : isExponentMark mark = true) (hs : ExponentSign text negative unsigned)
      (hd : Digits unsigned digits rest) :
      Exponent (mark :: text) (some (signed negative digits)) rest
  | none {rest : List Char} (h : Stops isExponentMark rest) : Exponent rest none rest

/-- What may not follow a number. -/
def continuesNumber (c : Char) : Bool := c.isDigit || c == '.' || isNameStart c

/-- A number at the front of a text. Its whole part has no leading zeros. -/
inductive Numeral : List Char → Number → List Char → Prop where
  | mk {text unsigned afterWhole afterFraction rest : List Char} {number : Number}
      (sign : Sign text number.negative unsigned)
      (whole : Digits unsigned number.whole afterWhole)
      (leading : number.whole.head? = some '0' → number.whole = ['0'])
      (fraction : Fraction afterWhole number.fraction afterFraction)
      (exponent : Exponent afterFraction number.exponent rest)
      (stops : Stops continuesNumber rest) : Numeral text number rest

/-- The value of a number: an integer, which has to fit into 64 bits, or a float if the number has a
fraction or an exponent. -/
def Number.value? (number : Number) : Option InputValue :=
  match number.fraction, number.exponent with
  | none, none =>
    let i := signed number.negative number.whole
    if Json.minInt64 ≤ i ∧ i ≤ Json.maxInt64 then some (.int i) else none
  | fraction, exponent =>
    let x := (Decimal.Numeral.ofParts number.whole (fraction.getD []) (exponent.getD 0)).toFloat
    some (.float (if number.negative then -x else x))

section Numbers

variable {text digits digits' rest rest' : List Char} {negative negative' : Bool}

theorem Digits.eq_cons {digits : List Char} (h : Digits text digits rest) :
    ∃ first others, text = first :: others ∧ first.isDigit = true := by
  obtain ⟨⟨rfl, hall, _⟩, hne⟩ := h
  obtain ⟨first, others, rfl⟩ := List.exists_cons_of_ne_nil hne
  exact ⟨first, others ++ rest, rfl, hall first List.mem_cons_self⟩

theorem Digits.unique (h : Digits text digits rest) (h' : Digits text digits' rest') :
    digits = digits' ∧ rest = rest' := h.span.unique h'.span

theorem Sign.unique (h : Sign text negative rest) (h' : Sign text negative' rest') :
    negative = negative' ∧ rest = rest' := by
  cases h with
  | minus =>
    cases h' with
    | minus => exact ⟨rfl, rfl⟩
    | none h => exact absurd (h '-' rfl) (by decide)
  | none h =>
    cases h' with
    | minus => exact absurd (h '-' rfl) (by decide)
    | none _ => exact ⟨rfl, rfl⟩

theorem ExponentSign.unique (h : ExponentSign text negative rest)
    (h' : ExponentSign text negative' rest') : negative = negative' ∧ rest = rest' := by
  cases h with
  | plus =>
    cases h' with
    | plus => exact ⟨rfl, rfl⟩
    | none h => exact absurd (h '+' rfl) (by decide)
  | minus =>
    cases h' with
    | minus => exact ⟨rfl, rfl⟩
    | none h => exact absurd (h '-' rfl) (by decide)
  | none h =>
    cases h' with
    | plus => exact absurd (h '+' rfl) (by decide)
    | minus => exact absurd (h '-' rfl) (by decide)
    | none _ => exact ⟨rfl, rfl⟩

theorem Fraction.unique {fraction fraction' : Option (List Char)} (h : Fraction text fraction rest)
    (h' : Fraction text fraction' rest') : fraction = fraction' ∧ rest = rest' := by
  cases h with
  | some h =>
    cases h' with
    | some h' =>
      obtain ⟨rfl, rfl⟩ := h.unique h'
      exact ⟨rfl, rfl⟩
    | none h' => exact absurd (h' _ rfl) (by decide)
  | none h =>
    cases h' with
    | some _ => exact absurd (h '.' rfl) (by decide)
    | none _ => exact ⟨rfl, rfl⟩

theorem Exponent.unique {exponent exponent' : Option Int} (h : Exponent text exponent rest)
    (h' : Exponent text exponent' rest') : exponent = exponent' ∧ rest = rest' := by
  cases h with
  | some hm hs hd =>
    cases h' with
    | some _ hs' hd' =>
      obtain ⟨rfl, rfl⟩ := hs.unique hs'
      obtain ⟨rfl, rfl⟩ := hd.unique hd'
      exact ⟨rfl, rfl⟩
    | none h' => exact absurd (h' _ rfl) (by simp [hm])
  | none h =>
    cases h' with
    | some hm _ _ => exact absurd (h _ rfl) (by simp [hm])
    | none _ => exact ⟨rfl, rfl⟩

theorem Numeral.unique {number number' : Number} (h : Numeral text number rest)
    (h' : Numeral text number' rest') : number = number' ∧ rest = rest' := by
  obtain ⟨hs, hw, _, hf, he, _⟩ := h
  obtain ⟨hs', hw', _, hf', he', _⟩ := h'
  obtain ⟨hsign, rfl⟩ := hs.unique hs'
  obtain ⟨hwhole, rfl⟩ := hw.unique hw'
  obtain ⟨hfraction, rfl⟩ := hf.unique hf'
  obtain ⟨hexponent, rfl⟩ := he.unique he'
  cases number
  cases number'
  cases hsign
  cases hwhole
  cases hfraction
  cases hexponent
  exact ⟨rfl, rfl⟩

end Numbers

/-! ## Strings -/

/-- The character that an escape of one character stands for. -/
def escaped? : Char → Option Char
  | '"' => some '"'
  | '\\' => some '\\'
  | '/' => some '/'
  | 'b' => some '\x08'
  | 'f' => some '\x0c'
  | 'n' => some '\n'
  | 'r' => some '\r'
  | 't' => some '\t'
  | _ => none

def isHexDigit (c : Char) : Bool := (Json.hexValue c).isSome

def hexNumber (digits : List Char) : Nat :=
  digits.foldl (fun n c => 16 * n + (Json.hexValue c).getD 0) 0

/-- What follows the backslash of an escape, and the character that it stands for. A character may
be given by its number, and one beyond four digits also by a surrogate pair. -/
inductive Escape : List Char → Char → List Char → Prop where
  | short {c meant : Char} {rest : List Char} (h : escaped? c = some meant) :
      Escape (c :: rest) meant rest
  | unit {a b c d meant : Char} {number : Nat} {rest : List Char}
      (hq : Json.hexQuad a b c d = some number) (hm : Json.unitChar number = some meant) :
      Escape ('u' :: a :: b :: c :: d :: rest) meant rest
  | pair {a b c d a' b' c' d' meant : Char} {high low : Nat} {rest : List Char}
      (hh : Json.hexQuad a b c d = some high) (hl : Json.hexQuad a' b' c' d' = some low)
      (hm : Json.pairChar high low = some meant) :
      Escape ('u' :: a :: b :: c :: d :: '\\' :: 'u' :: a' :: b' :: c' :: d' :: rest) meant rest
  | braced {text digits rest : List Char}
      (hs : Span isHexDigit text digits ('\x7d' :: rest)) (hne : digits ≠ [])
      (hv : (hexNumber digits).isValidChar) :
      Escape ('u' :: '\x7b' :: text) (Char.ofNat (hexNumber digits)) rest

/-- The characters of a string after its opening quote, and what follows its closing quote. -/
inductive Quoted : List Char → List Char → List Char → Prop where
  | close {rest : List Char} : Quoted ('"' :: rest) [] rest
  | plain {c : Char} {text chars rest : List Char} (hq : c ≠ '"') (hb : c ≠ '\\')
      (hl : isLineEnd c = false) (h : Quoted text chars rest) :
      Quoted (c :: text) (c :: chars) rest
  | escape {c : Char} {text after chars rest : List Char} (he : Escape text c after)
      (h : Quoted after chars rest) : Quoted ('\\' :: text) (c :: chars) rest

/-- The characters of a string in triple quotes after the opening ones, and what follows the closing
ones. Only triple quotes can be escaped. -/
inductive Block : List Char → List Char → List Char → Prop where
  | close {rest : List Char} : Block ('"' :: '"' :: '"' :: rest) [] rest
  | quotes {text raw rest : List Char} (h : Block text raw rest) :
      Block ('\\' :: '"' :: '"' :: '"' :: text) ('"' :: '"' :: '"' :: raw) rest
  | char {c : Char} {text raw rest : List Char} (hq : ¬ ['"', '"', '"'] <+: c :: text)
      (he : ¬ ['\\', '"', '"', '"'] <+: c :: text) (h : Block text raw rest) :
      Block (c :: text) (c :: raw) rest

def blockLines : List Char → List (List Char)
  | [] => [[]]
  | '\r' :: '\n' :: rest => [] :: blockLines rest
  | '\n' :: rest => [] :: blockLines rest
  | '\r' :: rest => [] :: blockLines rest
  | c :: rest =>
    match blockLines rest with
    | [] => [[c]]
    | line :: lines => (c :: line) :: lines

/-- The least indentation of the lines that are not blank. -/
def commonIndent (lines : List (List Char)) : Option Nat :=
  ((lines.filter fun line => !line.all isBlank).map fun line =>
    (line.takeWhile isBlank).length).min?

/-- The value of a string in triple quotes: without the common indentation of all lines but the
first, and without blank lines at either end. -/
def blockValue (raw : List Char) : List Char :=
  let lines := blockLines raw
  let indented := lines.drop 1
  let outdented := lines.take 1 ++ indented.map (List.drop ((commonIndent indented).getD 0))
  let trimmed := (outdented.dropWhile (·.all isBlank)).reverse.dropWhile (·.all isBlank)
  List.intercalate ['\n'] trimmed.reverse

example : blockValue "\n    ab\r\n      c\n  \n".toList = "ab\n  c".toList := by decide

section Strings

variable {text chars chars' rest rest' : List Char}

theorem unitChar_of_pairChar {high low : Nat} {meant : Char}
    (h : Json.pairChar high low = some meant) : Json.unitChar high = none := by
  simp only [Json.pairChar, Bool.and_eq_true, decide_eq_true_eq] at h
  split at h
  · next hr =>
    simp only [Json.unitChar, Bool.and_eq_true, decide_eq_true_eq]
    exact if_pos (by omega)
  · cases h

theorem Escape.unique {c c' : Char} (h : Escape text c rest) (h' : Escape text c' rest') :
    c = c' ∧ rest = rest' := by
  cases h with
  | short h =>
    cases h' with
    | short h' => exact ⟨Option.some.inj (h.symm.trans h'), rfl⟩
    | unit | pair | braced => cases h
  | unit hq hm =>
    cases h' with
    | short h' => cases h'
    | unit hq' hm' =>
      obtain rfl := Option.some.inj (hq.symm.trans hq')
      exact ⟨Option.some.inj (hm.symm.trans hm'), rfl⟩
    | pair hh hl hm' =>
      -- half of a surrogate pair is not a character by itself
      obtain rfl := Option.some.inj (hq.symm.trans hh)
      rw [unitChar_of_pairChar hm'] at hm
      cases hm
    | braced => cases hq
  | pair hh hl hm =>
    cases h' with
    | short h' => cases h'
    | unit hq hm' =>
      obtain rfl := Option.some.inj (hh.symm.trans hq)
      rw [unitChar_of_pairChar hm] at hm'
      cases hm'
    | pair hh' hl' hm' =>
      obtain rfl := Option.some.inj (hh.symm.trans hh')
      obtain rfl := Option.some.inj (hl.symm.trans hl')
      exact ⟨Option.some.inj (hm.symm.trans hm'), rfl⟩
    | braced => cases hh
  | braced hs _ _ =>
    cases h' with
    | short h' => cases h'
    | unit hq _ => cases hq
    | pair hh _ _ => cases hh
    | braced hs' _ _ =>
      obtain ⟨rfl, hrest⟩ := hs.unique hs'
      exact ⟨rfl, (List.cons.inj hrest).2⟩

theorem Quoted.unique (h : Quoted text chars rest) (h' : Quoted text chars' rest') :
    chars = chars' ∧ rest = rest' := by
  induction h generalizing chars' with
  | close =>
    cases h' with
    | close => exact ⟨rfl, rfl⟩
    | plain hq _ _ _ => exact absurd rfl hq
  | plain hq hb hl h ih =>
    cases h' with
    | close => exact absurd rfl hq
    | plain _ _ _ h' =>
      obtain ⟨rfl, rfl⟩ := ih h'
      exact ⟨rfl, rfl⟩
    | escape => exact absurd rfl hb
  | escape he h ih =>
    cases h' with
    | plain _ hb _ _ => exact absurd rfl hb
    | escape he' h' =>
      obtain ⟨rfl, rfl⟩ := he.unique he'
      obtain ⟨rfl, rfl⟩ := ih h'
      exact ⟨rfl, rfl⟩

theorem Block.unique (h : Block text chars rest) (h' : Block text chars' rest') :
    chars = chars' ∧ rest = rest' := by
  induction h generalizing chars' with
  | close =>
    cases h' with
    | close => exact ⟨rfl, rfl⟩
    | char hq _ _ => exact absurd ⟨_, rfl⟩ hq
  | quotes h ih =>
    cases h' with
    | quotes h' =>
      obtain ⟨rfl, rfl⟩ := ih h'
      exact ⟨rfl, rfl⟩
    | char _ he _ => exact absurd ⟨_, rfl⟩ he
  | char hq he h ih =>
    cases h' with
    | close => exact absurd ⟨_, rfl⟩ hq
    | quotes h' => exact absurd ⟨_, rfl⟩ he
    | char _ _ h' =>
      obtain ⟨rfl, rfl⟩ := ih h'
      exact ⟨rfl, rfl⟩

end Strings

/-! ## Tokens -/

inductive Token where
  | punctuator (mark : Punctuator)
  | spread
  | name (text : String)
  | number (number : Number)
  | string (text : String)

def Token.opening : Token → Opening
  | punctuator mark => .punctuator mark
  | spread => .spread
  | name _ => .name
  | number _ => .number
  | string _ => .string

/-- A token at the front of a text. Two quotes are an empty string unless a third one follows. -/
inductive Lexeme : List Char → Token → List Char → Prop where
  | punctuator {c : Char} {mark : Punctuator} {rest : List Char}
      (ho : opening? c = some (.punctuator mark)) : Lexeme (c :: rest) (.punctuator mark) rest
  | spread {rest : List Char} : Lexeme ('.' :: '.' :: '.' :: rest) .spread rest
  | name {c : Char} {text chars rest : List Char} (ho : opening? c = some .name)
      (h : Span isNamePart text chars rest) :
      Lexeme (c :: text) (.name (String.ofList (c :: chars))) rest
  | number {c : Char} {text rest : List Char} {number : Number} (ho : opening? c = some .number)
      (h : Numeral (c :: text) number rest) : Lexeme (c :: text) (.number number) rest
  | string {text chars rest : List Char} (hq : ¬ ['"', '"'] <+: text)
      (h : Quoted text chars rest) : Lexeme ('"' :: text) (.string (String.ofList chars)) rest
  | block {text raw rest : List Char} (h : Block text raw rest) :
      Lexeme ('"' :: '"' :: '"' :: text) (.string (String.ofList (blockValue raw))) rest

/-- A text as a row of tokens. A comment runs to the end of its line. -/
inductive Tokens : List Char → List Token → Prop where
  | nil : Tokens [] []
  | ignored {c : Char} {text : List Char} {tokens : List Token} (ho : opening? c = some .ignored)
      (h : Tokens text tokens) : Tokens (c :: text) tokens
  | comment {text content rest : List Char} {tokens : List Token}
      (hs : Span (fun c => !isLineEnd c) text content rest) (h : Tokens rest tokens) :
      Tokens ('#' :: text) tokens
  | token {text rest : List Char} {token : Token} {tokens : List Token}
      (ht : Lexeme text token rest) (h : Tokens rest tokens) : Tokens text (token :: tokens)

section Lexing

variable {text rest rest' : List Char} {token token' : Token} {tokens tokens' : List Token}
  {c : Char}

/-- The first character of a token tells what token it is. -/
theorem Lexeme.opening (h : Lexeme (c :: text) token rest) : opening? c = some token.opening := by
  cases h with
  | punctuator ho => exact ho
  | name ho _ => exact ho
  | number ho _ => exact ho
  | spread | string | block => rfl

/-- A number is a token. -/
theorem Numeral.lexeme {number : Number} (h : Numeral text number rest) :
    Lexeme text (.number number) rest := by
  have hn := h
  obtain ⟨hs, hw, _, _, _, _⟩ := h
  generalize number.negative = negative at hs
  cases hs with
  | minus => exact .number rfl hn
  | none _ =>
    obtain ⟨first, others, rfl, hdigit⟩ := hw.eq_cons
    exact .number (opening?_of_isDigit hdigit) hn

theorem Lexeme.unique (h : Lexeme text token rest) (h' : Lexeme text token' rest') :
    token = token' ∧ rest = rest' := by
  have hopening : token.opening = token'.opening := by
    cases text with
    | nil => cases h
    | cons c text => exact Option.some.inj (h.opening.symm.trans h'.opening)
  cases h with
  | punctuator _ =>
    cases h' with
    | punctuator _ =>
      cases hopening
      exact ⟨rfl, rfl⟩
    | _ => cases hopening
  | spread =>
    cases h' with
    | spread => exact ⟨rfl, rfl⟩
    | _ => cases hopening
  | name _ h =>
    cases h' with
    | name _ h' =>
      obtain ⟨rfl, rfl⟩ := h.unique h'
      exact ⟨rfl, rfl⟩
    | _ => cases hopening
  | number _ h =>
    cases h' with
    | number _ h' =>
      obtain ⟨rfl, rfl⟩ := h.unique h'
      exact ⟨rfl, rfl⟩
    | _ => cases hopening
  | string hq h =>
    cases h' with
    | string _ h' =>
      obtain ⟨rfl, rfl⟩ := h.unique h'
      exact ⟨rfl, rfl⟩
    | block _ => exact absurd ⟨_, rfl⟩ hq
    | _ => cases hopening
  | block h =>
    cases h' with
    | string hq _ => exact absurd ⟨_, rfl⟩ hq
    | block h' =>
      obtain ⟨rfl, rfl⟩ := h.unique h'
      exact ⟨rfl, rfl⟩
    | _ => cases hopening

/-- No token starts with a character that is ignored or opens a comment. -/
theorem Lexeme.not_opening {opening : Opening} (h : Lexeme (c :: text) token rest)
    (ho : opening? c = some opening) : opening ≠ .ignored ∧ opening ≠ .comment := by
  obtain rfl := Option.some.inj (ho.symm.trans h.opening)
  cases token <;> exact ⟨nofun, nofun⟩

theorem Tokens.unique (h : Tokens text tokens) (h' : Tokens text tokens') : tokens = tokens' := by
  induction h generalizing tokens' with
  | nil =>
    cases h' with
    | nil => rfl
    | token ht _ => cases ht
  | ignored ho h ih =>
    cases h' with
    | ignored _ h' => exact ih h'
    | comment _ _ => cases ho
    | token ht _ => exact absurd rfl (ht.not_opening ho).1
  | comment hs h ih =>
    cases h' with
    | ignored ho _ => cases ho
    | comment hs' h' =>
      obtain ⟨-, rfl⟩ := hs.unique hs'
      exact ih h'
    | token ht _ => exact absurd rfl (ht.not_opening rfl).2
  | token ht h ih =>
    cases h' with
    | nil => cases ht
    | ignored ho _ => exact absurd rfl (ht.not_opening ho).1
    | comment _ _ => exact absurd rfl (ht.not_opening rfl).2
    | token ht' h' =>
      obtain ⟨rfl, rfl⟩ := ht.unique ht'
      exact congrArg _ (ih h')

end Lexing

/-! ## Values -/

/-- The value of a name: a Boolean, null, or an enum value. -/
def nameValue : String → InputValue
  | "true" => .bool true
  | "false" => .bool false
  | "null" => .null
  | name => .enum name

/-- What tokens can make up: a value, the items of a list up to its closing bracket, or the entries
of an object up to its closing brace. -/
inductive Phrase where
  | value (value : InputValue)
  | items (items : List InputValue)
  | entries (entries : List (String × InputValue))

inductive Derives : Phrase → List Token → List Token → Prop where
  | «variable» {name : String} {rest : List Token} :
      Derives (.value (.variable name)) (.punctuator .dollar :: .name name :: rest) rest
  | name {name : String} {rest : List Token} :
      Derives (.value (nameValue name)) (.name name :: rest) rest
  | number {number : Number} {value : InputValue} {rest : List Token}
      (h : number.value? = some value) : Derives (.value value) (.number number :: rest) rest
  | string {text : String} {rest : List Token} :
      Derives (.value (.str text)) (.string text :: rest) rest
  | list {items : List InputValue} {tokens rest : List Token}
      (h : Derives (.items items) tokens rest) :
      Derives (.value (.list items)) (.punctuator .leftBracket :: tokens) rest
  | noItems {rest : List Token} : Derives (.items []) (.punctuator .rightBracket :: rest) rest
  | item {item : InputValue} {items : List InputValue} {tokens after rest : List Token}
      (h : Derives (.value item) tokens after) (hs : Derives (.items items) after rest) :
      Derives (.items (item :: items)) tokens rest
  | object {entries : List (String × InputValue)} {tokens rest : List Token}
      (h : Derives (.entries entries) tokens rest) :
      Derives (.value (.object entries)) (.punctuator .leftBrace :: tokens) rest
  | noEntries {rest : List Token} : Derives (.entries []) (.punctuator .rightBrace :: rest) rest
  | entry {name : String} {value : InputValue} {entries : List (String × InputValue)}
      {tokens after rest : List Token} (h : Derives (.value value) tokens after)
      (hs : Derives (.entries entries) after rest) :
      Derives (.entries ((name, value) :: entries))
        (.name name :: .punctuator .colon :: tokens) rest

/-- Phrases of the same sort. -/
def Phrase.Alike : Phrase → Phrase → Prop
  | value _, value _ => True
  | items _, items _ => True
  | entries _, entries _ => True
  | _, _ => False

theorem Derives.unique {phrase phrase' : Phrase} {tokens rest rest' : List Token}
    (h : Derives phrase tokens rest) (h' : Derives phrase' tokens rest')
    (ha : phrase.Alike phrase') : phrase = phrase' ∧ rest = rest' := by
  -- the first token tells the rule for a phrase of this sort; no value starts with what closes a
  -- list
  induction h generalizing phrase' rest' with
  | «variable» =>
    cases h' with
    | «variable» => exact ⟨rfl, rfl⟩
    | _ => cases ha
  | name =>
    cases h' with
    | name => exact ⟨rfl, rfl⟩
    | _ => cases ha
  | number h =>
    cases h' with
    | number h' => exact ⟨congrArg _ (Option.some.inj (h.symm.trans h')), rfl⟩
    | _ => cases ha
  | string =>
    cases h' with
    | string => exact ⟨rfl, rfl⟩
    | _ => cases ha
  | list h ih =>
    cases h' with
    | list h' =>
      obtain ⟨hitems, rfl⟩ := ih h' trivial
      cases hitems
      exact ⟨rfl, rfl⟩
    | _ => cases ha
  | noItems =>
    cases h' with
    | noItems => exact ⟨rfl, rfl⟩
    | item h' _ => cases h'
  | item h hs ih ihs =>
    cases h' with
    | noItems => cases h
    | item h' hs' =>
      obtain ⟨hitem, rfl⟩ := ih h' trivial
      obtain ⟨hitems, rfl⟩ := ihs hs' trivial
      cases hitem
      cases hitems
      exact ⟨rfl, rfl⟩
    | _ => cases ha
  | object h ih =>
    cases h' with
    | object h' =>
      obtain ⟨hentries, rfl⟩ := ih h' trivial
      cases hentries
      exact ⟨rfl, rfl⟩
    | _ => cases ha
  | noEntries =>
    cases h' with
    | noEntries => exact ⟨rfl, rfl⟩
    | _ => cases ha
  | entry h hs ih ihs =>
    cases h' with
    | entry h' hs' =>
      obtain ⟨hvalue, rfl⟩ := ih h' trivial
      obtain ⟨hentries, rfl⟩ := ihs hs' trivial
      cases hvalue
      cases hentries
      exact ⟨rfl, rfl⟩
    | _ => cases ha

/-- The text is read as the value. -/
def Reads (text : String) (value : InputValue) : Prop :=
  ∃ tokens, Tokens text.toList tokens ∧ Derives (.value value) tokens []

/-- A text is read as one value at most. -/
theorem Reads.unique {text : String} {value value' : InputValue} (h : Reads text value)
    (h' : Reads text value') : value = value' := by
  obtain ⟨tokens, ht, hd⟩ := h
  obtain ⟨tokens', ht', hd'⟩ := h'
  obtain rfl := ht.unique ht'
  obtain ⟨rfl, -⟩ := Phrase.value.inj (hd.unique hd' trivial).1
  rfl

end GraphQL.Grammar
