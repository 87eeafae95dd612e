import GraphQL.Json.Text
import GraphQL.Json.Reading
import GraphQL.Text.Printable

/-!
# Shapes of JSON values

Reading a value as one of a few simple shapes, and the reason when it does not have the shape.
Nothing is converted except that any number can be read as a float.
-/

namespace GraphQL

inductive Shape where
  /-- An integer of 64 bits with a sign. -/
  | int64
  | boolean
  /-- Any number, read as a float. -/
  | number
  | text
  | texts
  | any

namespace Json

inductive Mismatch where
  /-- A value of another kind than the wanted one. -/
  | kind (found : Json) (wanted : String)
  /-- An integer too large for 64 bits with a sign. -/
  | range (found : Int)

def kindText : Json → String
  | null => "null"
  | bool value => "boolean `" ++ toString value ++ "`"
  | int value => "integer `" ++ toString value ++ "`"
  | float value => "floating point `" ++ String.ofList (floatChars value) ++ "`"
  | str value => "string " ++ Text.quoted value
  | arr _ => "sequence"
  | obj _ => "map"

def Mismatch.message : Mismatch → String
  | kind found wanted => "invalid type: " ++ found.kindText ++ ", expected " ++ wanted
  | range found => "invalid value: integer `" ++ toString found ++ "`, expected i64"

def intToFloat (i : Int) : Float :=
  let size := (Decimal.Numeral.mk i.natAbs 0).toFloat
  if i < 0 then -size else size

/-- Reads the elements of a list of texts; the first element of another kind is the reason. -/
def readTexts : List Json → Except Mismatch (List Json)
  | [] => .ok []
  | str text :: rest => (readTexts rest).map (str text :: ·)
  | item :: _ => .error (.kind item "a string")

def readAs (shape : Shape) (value : Json) : Except Mismatch Json :=
  match shape, value with
  | .any, value => .ok value
  | .int64, int i => if i ≤ maxInt64 then .ok (int i) else .error (.range i)
  | .int64, value => .error (.kind value "i64")
  | .boolean, bool b => .ok (bool b)
  | .boolean, value => .error (.kind value "a boolean")
  | .number, int i => .ok (float (intToFloat i))
  | .number, float x => .ok (float x)
  | .number, value => .error (.kind value "f64")
  | .text, str text => .ok (str text)
  | .text, value => .error (.kind value "a string")
  | .texts, arr items => (readTexts items).map arr
  | .texts, value => .error (.kind value "a sequence")

def readAs? (shape : Shape) (value : Json) : Option Json := (readAs shape value).toOption

end Json

end GraphQL
