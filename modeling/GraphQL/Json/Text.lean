import GraphQL.Json.Basic
import GraphQL.Decimal.Shortest

/-!
# JSON text

The compact text of a JSON value: no blanks, members in order, the short escapes where there are
any, and every character above the controls as it is.

A float is written with its shortest digits and always with a point or an exponent, so that it
cannot be read as an integer. It is positional from `0.00001` up to sixteen places before the
point, and has one digit before the point and a signed exponent elsewhere.
-/

namespace GraphQL.Json

def intChars (i : Int) : List Char := (toString i).toList

/-- The text of the decimal with the given digits and exponent. -/
def scaledChars (x : Decimal.Scaled) : List Char :=
  let digits := Nat.toDigits 10 x.digits
  let place : Int := digits.length + x.exponent
  if x.digits = 0 then ['0', '.', '0']
  else if place ≤ -5 ∨ 16 < place then
    let rest := digits.drop 1
    let exponent := place - 1
    digits.take 1 ++ (if rest.isEmpty then [] else '.' :: rest) ++
      ['e', if exponent < 0 then '-' else '+'] ++ Nat.toDigits 10 exponent.natAbs
  else if 0 ≤ x.exponent then digits ++ List.replicate x.exponent.toNat '0' ++ ['.', '0']
  else if 0 < place then digits.take place.toNat ++ '.' :: digits.drop place.toNat
  else ['0', '.'] ++ List.replicate (-place).toNat '0' ++ digits

def floatChars (x : Float) : List Char :=
  (if Decimal.isNegative x then ['-'] else []) ++ scaledChars (Decimal.shortest x)

def hexDigit (n : Nat) : Char := Nat.digitChar n

def escapedChar (c : Char) : List Char :=
  match c with
  | '"' => ['\\', '"']
  | '\\' => ['\\', '\\']
  | '\x08' => ['\\', 'b']
  | '\x0c' => ['\\', 'f']
  | '\n' => ['\\', 'n']
  | '\r' => ['\\', 'r']
  | '\t' => ['\\', 't']
  | c =>
    if c.toNat < 0x20 then ['\\', 'u', '0', '0', hexDigit (c.toNat / 16), hexDigit (c.toNat % 16)]
    else [c]

def stringChars (text : String) : List Char :=
  '"' :: text.toList.flatMap escapedChar ++ ['"']

mutual

def chars : Json → List Char
  | null => ['n', 'u', 'l', 'l']
  | bool true => ['t', 'r', 'u', 'e']
  | bool false => ['f', 'a', 'l', 's', 'e']
  | int i => intChars i
  | float x => floatChars x
  | str text => stringChars text
  | arr items => '[' :: itemsChars items ++ [']']
  | obj members => '\x7b' :: membersChars members ++ ['\x7d']

/-- The texts of the items of an array, separated by commas. -/
def itemsChars : List Json → List Char
  | [] => []
  | [item] => chars item
  | item :: items => chars item ++ ',' :: itemsChars items

/-- The texts of the members of an object, separated by commas. -/
def membersChars : List (String × Json) → List Char
  | [] => []
  | [(name, value)] => stringChars name ++ ':' :: chars value
  | (name, value) :: members =>
    stringChars name ++ ':' :: chars value ++ ',' :: membersChars members

end

def render (value : Json) : String := String.ofList value.chars

end GraphQL.Json
