import ObjectMachine.Digits
import ObjectMachine.Text.Hidden

/-! Quoted text for diagnostics.

Quotes and backslashes are escaped, the usual control characters have their letters, and every other
character that does not show on its own is written by its number. -/

namespace ObjectMachine.Text

/-- A character inside quotes. -/
def quoteChar (c : Char) : String :=
  if c == '"' then "\\\""
  else if c == '\\' then "\\\\"
  else if c == '\n' then "\\n"
  else if c == '\r' then "\\r"
  else if c == '\t' then "\\t"
  else if c.toNat == 0 then "\\0"
  else if isHidden c then "\\u\x7b" ++ Digits.ofNat 16 c.toNat ++ "\x7d"
  else c.toString

/-- A text in quotes. -/
def quoted (s : String) : String := "\"" ++ String.join (s.toList.map quoteChar) ++ "\""

end ObjectMachine.Text
