/-!
# Numerals

Decimal numerals as they are written: digits with an optional fraction and an optional exponent.
A numeral is read exactly, as a natural number times a power of ten, and becomes a float by one
correct rounding.
-/

namespace GraphQL.Decimal

structure Numeral where
  digits : Nat
  exponent : Int

/-- The nearest float, which is infinite when the number is too large. -/
def Numeral.toFloat (n : Numeral) : Float :=
  Float.ofScientific n.digits (n.exponent < 0) n.exponent.natAbs

def digitsValue (digits : List Char) : Nat :=
  digits.foldl (fun n c => 10 * n + (c.toNat - '0'.toNat)) 0

/-- The digits at the front of a text and what follows them. -/
def splitDigits (text : List Char) : List Char × List Char :=
  (text.takeWhile Char.isDigit, text.dropWhile Char.isDigit)

/-- The digits after a point, if the text starts with one, and what follows them. -/
def splitFraction : List Char → Option (List Char) × List Char
  | '.' :: rest => let (digits, rest) := splitDigits rest; (some digits, rest)
  | text => (none, text)

/-- The number after an exponent mark: an optional sign and at least one digit. -/
def readExponent (text : List Char) : Option (Int × List Char) :=
  let (negative, unsigned) := match text with
    | '-' :: rest => (true, rest)
    | '+' :: rest => (false, rest)
    | text => (false, text)
  match splitDigits unsigned with
  | ([], _) => none
  | (digits, rest) =>
    let size : Int := digitsValue digits
    some (if negative then -size else size, rest)

/-- The exponent at the front of a text: zero when there is no exponent mark, nothing when the
mark has no number after it. -/
def splitExponent : List Char → Option (Int × List Char)
  | 'e' :: rest => readExponent rest
  | 'E' :: rest => readExponent rest
  | text => some (0, text)

/-- The number written as whole digits, fraction digits and an exponent. -/
def Numeral.ofParts (whole fraction : List Char) (exponent : Int) : Numeral :=
  ⟨digitsValue (whole ++ fraction), exponent - fraction.length⟩

/-- Reads a whole text as an unsigned numeral: digits before or after an optional point, and an
optional exponent. One of the two rows of digits may be empty. -/
def readNumeral (text : List Char) : Option Numeral :=
  let (whole, rest) := splitDigits text
  let (fraction, rest) := splitFraction rest
  let fraction := fraction.getD []
  if whole.isEmpty && fraction.isEmpty then none
  else match splitExponent rest with
    | some (exponent, []) => some (.ofParts whole fraction exponent)
    | _ => none

/-- Reads a whole text as a float: an optional sign, then a numeral or one of the words for the
infinity and the undefined number in any letter case. -/
def readFloat (text : List Char) : Option Float :=
  let (negative, unsigned) := match text with
    | '-' :: rest => (true, rest)
    | '+' :: rest => (false, rest)
    | text => (false, text)
  let size :=
    match String.ofList (unsigned.map Char.toLower) with
    | "inf" | "infinity" => some (1.0 / 0.0)
    | "nan" => some (0.0 / 0.0)
    | _ => (readNumeral unsigned).map Numeral.toFloat
  size.map fun x => if negative then -x else x

end GraphQL.Decimal
