import ErasureField.Text.Numeral

/-!
JSON values and their compact text. Integers are kept exactly; a number that is
written with a point or an exponent is not an integer, whatever it comes to, and
keeps its digits. The members of an object keep their order, and where a key stands
twice its last value is the one that counts: an object is read as a map from keys to
values that is filled from the first member to the last. A reader that fills a record
straight from text and refuses a key that stands twice is another one, and is not
modelled.
-/

namespace ErasureField

inductive Json where
  | null
  | bool (value : Bool)
  | integer (value : Int)
  | decimal (digits : String)
  | string (text : String)
  | array (items : List Json)
  | object (members : List (String × Json))

namespace Json

def ofNat (n : Nat) : Json := .integer n

/-- A control character as the four digits of its code point. -/
def controlEscape (c : Char) : String :=
  let digits := Text.hexDigits c.toNat
  "\\u" ++ String.ofList (List.replicate (4 - digits.length) '0') ++ digits

def escaped (c : Char) : String :=
  if c = '"' then "\\\""
  else if c = '\\' then "\\\\"
  else if c = '\n' then "\\n"
  else if c = '\r' then "\\r"
  else if c = '\t' then "\\t"
  else if c.toNat < 0x20 then controlEscape c
  else c.toString

def renderString (text : String) : String :=
  "\"" ++ String.join (text.toList.map escaped) ++ "\""

def braced (members : List String) : String :=
  "\x7b" ++ String.intercalate "," members ++ "\x7d"

mutual

/-- The compact text of a value: no blanks, members in their order. -/
def render : Json → String
  | .null => "null"
  | .bool value => if value then "true" else "false"
  | .integer value => toString value
  | .decimal digits => digits
  | .string text => renderString text
  | .array items => "[" ++ String.intercalate "," (renderItems items) ++ "]"
  | .object members => braced (renderMembers members)

def renderItems : List Json → List String
  | [] => []
  | item :: rest => render item :: renderItems rest

def renderMembers : List (String × Json) → List String
  | [] => []
  | (key, value) :: rest => (renderString key ++ ":" ++ render value) :: renderMembers rest

end

/-- The value of a member. Where members share a key the last one counts. -/
def member? (members : List (String × Json)) (key : String) : Option Json :=
  members.reverse.lookup key

end Json

end ErasureField
