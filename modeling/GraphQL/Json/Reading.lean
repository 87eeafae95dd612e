import GraphQL.Json.Basic
import GraphQL.Decimal.Numeral

/-!
# Reading JSON text

A total reader of JSON text. A number without a point and an exponent is an integer if it fits
into 64 bits, signed or unsigned, and a float otherwise; the integer text of the negative zero is
a float too. A name repeated in an object keeps its first place and takes the last value. A text
that is not one JSON value, with blanks around it, is refused.
-/

namespace GraphQL.Json

def minInt64 : Int := -9223372036854775808

def maxInt64 : Int := 9223372036854775807

/-- The greatest integer of 64 bits without a sign. -/
def maxUInt64 : Int := 18446744073709551615

def skipBlanks (text : List Char) : List Char :=
  text.dropWhile fun c => c == ' ' || c == '\n' || c == '\r' || c == '\t'

def hexValue (c : Char) : Option Nat :=
  if '0' ≤ c && c ≤ '9' then some (c.toNat - '0'.toNat)
  else if 'a' ≤ c && c ≤ 'f' then some (c.toNat - 'a'.toNat + 10)
  else if 'A' ≤ c && c ≤ 'F' then some (c.toNat - 'A'.toNat + 10)
  else none

def hexQuad (a b c d : Char) : Option Nat := do
  return (((← hexValue a) * 16 + (← hexValue b)) * 16 + (← hexValue c)) * 16 + (← hexValue d)

/-- The character of a code unit, if it is not half of a surrogate pair. -/
def unitChar (unit : Nat) : Option Char :=
  if 0xD800 ≤ unit && unit ≤ 0xDFFF then none else some (Char.ofNat unit)

/-- The character of a surrogate pair. -/
def pairChar (high low : Nat) : Option Char :=
  if 0xD800 ≤ high && high ≤ 0xDBFF && 0xDC00 ≤ low && low ≤ 0xDFFF then
    some (Char.ofNat (0x10000 + (high - 0xD800) * 0x400 + (low - 0xDC00)))
  else none

/-- The characters of a string up to its closing quote, newest first, and what follows. -/
def readChars (seen : List Char) : List Char → Option (List Char × List Char)
  | [] => none
  | '"' :: rest => some (seen, rest)
  | '\\' :: 'u' :: a :: b :: c :: d :: rest => do
    let unit ← hexQuad a b c d
    match unitChar unit, rest with
    | some character, rest => readChars (character :: seen) rest
    | none, '\\' :: 'u' :: a' :: b' :: c' :: d' :: rest =>
      let low ← hexQuad a' b' c' d'
      readChars ((← pairChar unit low) :: seen) rest
    | none, _ => none
  | '\\' :: c :: rest =>
    match c with
    | '"' => readChars ('"' :: seen) rest
    | '\\' => readChars ('\\' :: seen) rest
    | '/' => readChars ('/' :: seen) rest
    | 'b' => readChars ('\x08' :: seen) rest
    | 'f' => readChars ('\x0c' :: seen) rest
    | 'n' => readChars ('\n' :: seen) rest
    | 'r' => readChars ('\r' :: seen) rest
    | 't' => readChars ('\t' :: seen) rest
    | _ => none
  | c :: rest => if c.toNat < 0x20 then none else readChars (c :: seen) rest

/-- A string whose opening quote has been read, and what follows it. -/
def readString (text : List Char) : Option (String × List Char) :=
  (readChars [] text).map fun (seen, rest) => (String.ofList seen.reverse, rest)

def ofInteger (negative : Bool) (digits : List Char) : Json :=
  let size := Decimal.digitsValue digits
  let value : Int := if negative then -size else size
  if minInt64 ≤ value && value ≤ maxUInt64 && !(negative && size == 0) then int value
  else
    let x := (Decimal.Numeral.mk size 0).toFloat
    float (if negative then -x else x)

/-- A number and what follows it. The whole part has no leading zeros, and a point has digits on
both sides. -/
def readNumber (text : List Char) : Option (Json × List Char) := do
  let (negative, unsigned) := match text with
    | '-' :: rest => (true, rest)
    | text => (false, text)
  let (whole, rest) := Decimal.splitDigits unsigned
  if whole.isEmpty || (whole.head? == some '0' && whole.length != 1) then none
  let (fraction, rest') := Decimal.splitFraction rest
  if fraction == some [] then none
  let (exponent, rest'') ← Decimal.splitExponent rest'
  if rest''.length == rest.length then return (ofInteger negative whole, rest)
  let x := (Decimal.Numeral.ofParts whole (fraction.getD []) exponent).toFloat
  if x.isFinite then return (float (if negative then -x else x), rest'')
  none

mutual

/-- A value at the front of a text and what follows it. The fuel bounds the nesting and the number
of items and members; the length of the text is always enough. -/
def readValue : (fuel : Nat) → List Char → Option (Json × List Char)
  | 0, _ => none
  | fuel + 1, text =>
    match skipBlanks text with
    | 'n' :: 'u' :: 'l' :: 'l' :: rest => some (null, rest)
    | 't' :: 'r' :: 'u' :: 'e' :: rest => some (bool true, rest)
    | 'f' :: 'a' :: 'l' :: 's' :: 'e' :: rest => some (bool false, rest)
    | '"' :: rest => (readString rest).map fun (text, rest) => (str text, rest)
    | '[' :: rest =>
      match skipBlanks rest with
      | ']' :: rest => some (arr [], rest)
      | rest => (readItems fuel rest).map fun (items, rest) => (arr items, rest)
    | '\x7b' :: rest =>
      match skipBlanks rest with
      | '\x7d' :: rest => some (obj [], rest)
      | rest => (readMembers fuel rest).map fun (pairs, rest) => (obj (Members.ofList pairs), rest)
    | text => readNumber text

/-- The items of an array up to its closing bracket. -/
def readItems : (fuel : Nat) → List Char → Option (List Json × List Char)
  | 0, _ => none
  | fuel + 1, text => do
    let (item, rest) ← readValue fuel text
    match skipBlanks rest with
    | ',' :: rest =>
      let (items, rest) ← readItems fuel rest
      return (item :: items, rest)
    | ']' :: rest => return ([item], rest)
    | _ => none

/-- The members of an object up to its closing brace. -/
def readMembers : (fuel : Nat) → List Char → Option (List (String × Json) × List Char)
  | 0, _ => none
  | fuel + 1, text => do
    match skipBlanks text with
    | '"' :: rest =>
      let (name, rest) ← readString rest
      match skipBlanks rest with
      | ':' :: rest =>
        let (value, rest) ← readValue fuel rest
        match skipBlanks rest with
        | ',' :: rest =>
          let (members, rest) ← readMembers fuel rest
          return ((name, value) :: members, rest)
        | '\x7d' :: rest => return ([(name, value)], rest)
        | _ => none
      | _ => none
    | _ => none

end

def parse? (text : String) : Option Json :=
  let chars := text.toList
  match readValue (chars.length + 1) chars with
  | some (value, rest) => if (skipBlanks rest).isEmpty then some value else none
  | none => none

end GraphQL.Json
