import GraphQL.Json.Shape
import GraphQL.Schema.Reading
import GraphQL.Text.Letter

/-!
# Rules for leaves

How a resolved value becomes the output of a scalar or an enum. The built-in scalars accept values
of other kinds where these have an evident meaning, an enum accepts the names of its values, and
any other scalar accepts everything unless the application has set a coercer for it. Some coercers
are given as data.
-/

namespace GraphQL

/-- The coercion of a scalar: the output, or the message of the error. -/
abbrev ScalarCoercer := Json → Except String Json

namespace Leaf

def minInt32 : Int := -2147483648

def maxInt32 : Int := 2147483647

/-- The float that a text denotes, blanks at its ends aside. -/
def floatOfText? (text : String) : Option Float := Decimal.readFloat (Text.trim text.toList)

/-- The integer that a value denotes: a number without a fraction, the text of one, or a
Boolean. -/
def integerOf? : Json → Option Int
  | .int i => some i
  | .float x => Decimal.integer? x
  | .bool b => some (if b then 1 else 0)
  | .str text => (floatOfText? text).bind Decimal.integer?
  | _ => none

/-- The float that a value denotes: a number, the text of one, or a Boolean. -/
def floatOf? : Json → Option Float
  | .int i => some (Json.intToFloat i)
  | .float x => some x
  | .bool b => some (if b then 1.0 else 0.0)
  | .str text => floatOfText? text
  | _ => none

def coerceInt (value : Json) : Except String Json :=
  match integerOf? value with
  | some i =>
    if minInt32 ≤ i ∧ i ≤ maxInt32 then .ok (.int i)
    else .error ("Int cannot represent non 32-bit signed integer value: " ++ value.render)
  | none => .error ("Int cannot represent non-integer value: " ++ value.render)

def coerceFloat (value : Json) : Except String Json :=
  match (floatOf? value).filter Float.isFinite with
  | some x => .ok (.float x)
  | none => .error ("Float cannot represent non numeric value: " ++ value.render)

/-- A text, or the text of a Boolean or a number. -/
def coerceString : Json → Except String Json
  | .str text => .ok (.str text)
  | .bool b => .ok (.str (Json.bool b).render)
  | .int i => .ok (.str (Json.int i).render)
  | .float x => .ok (.str (Json.float x).render)
  | value => .error ("String cannot represent value: " ++ value.render)

/-- A Boolean, or whether a number is not zero. -/
def coerceBoolean (value : Json) : Except String Json :=
  let refused := .error ("Boolean cannot represent a non boolean value: " ++ value.render)
  match value with
  | .bool b => .ok (.bool b)
  | .int i => .ok (.bool (i != 0))
  | .float x => if x.isFinite then .ok (.bool (x != 0)) else refused
  | _ => refused

def coerceId : Json → Except String Json
  | .str text => .ok (.str text)
  | .int i => .ok (.str (Json.int i).render)
  | value => .error ("ID cannot represent value: " ++ value.render)

def coerceEnum (definition : EnumDef) (value : Json) : Except String Json :=
  let refused :=
    .error ("Enum \"" ++ definition.name ++ "\" cannot represent value: " ++ value.render)
  match value with
  | .str name => if definition.hasValue name then .ok (.str name) else refused
  | _ => refused

/-- The output of a scalar. A coercer of the application takes precedence over the built-in
one. -/
def coerceScalar (coercers : Members ScalarCoercer) (name : String) (value : Json) :
    Except String Json :=
  match Members.get? name coercers with
  | some coercer => coercer value
  | none =>
    match name with
    | "Int" => coerceInt value
    | "Float" => coerceFloat value
    | "String" => coerceString value
    | "Boolean" => coerceBoolean value
    | "ID" => coerceId value
    | _ => .ok value

/-- A type whose values have no fields. -/
inductive LeafDef where
  | scalar (definition : ScalarDef)
  | enum (definition : EnumDef)

def LeafDef.name : LeafDef → String
  | scalar definition => definition.name
  | enum definition => definition.name

def coerce (coercers : Members ScalarCoercer) (type : LeafDef) (value : Json) :
    Except String Json :=
  match type with
  | .scalar definition => coerceScalar coercers definition.name value
  | .enum definition => coerceEnum definition value

end Leaf

inductive ScalarRule where
  | null
  | refuse
  | wrap
  | text
  | stringOnly
  | identity

def ScalarRule.coercer (name : String) : ScalarRule → ScalarCoercer
  | null, _ => .ok .null
  | refuse, value => .error (name ++ " refused " ++ value.render)
  | wrap, value => .ok (.obj [("wrapped", value)])
  | text, value => .ok (.str value.render)
  | stringOnly, .str given => .ok (.str ("<" ++ given ++ ">"))
  | stringOnly, _ => .error (name ++ " expects a string")
  | identity, value => .ok value

end GraphQL
