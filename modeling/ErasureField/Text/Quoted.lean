import ErasureField.Text.Numeral
import ErasureField.Text.Printable

/-!
Quoted text for messages. A text stands between double quotes; the quote and the
backslash are marked by a backslash, and a character that cannot be shown as it is
is written by its code point.
-/

namespace ErasureField.Text

def escaped (c : Char) : String :=
  if c = '"' then "\\\""
  else if c = '\\' then "\\\\"
  else if c = '\t' then "\\t"
  else if c = '\n' then "\\n"
  else if c = '\r' then "\\r"
  else if c.toNat = 0 then "\\0"
  else if !isPrintable c then "\\u\x7b" ++ hexDigits c.toNat ++ "\x7d"
  else c.toString

/-- A text between double quotes, each character in its written form. -/
def quoted (text : String) : String :=
  "\"" ++ String.join (text.toList.map escaped) ++ "\""

end ErasureField.Text
