import ClassCompiler.Text.Visible

/-!
# Quoted text

Messages show names between double quotes. Quotes, backslashes and the usual controls are escaped
with a backslash, other characters that are not visible by their code point.
-/

namespace ClassCompiler.Text

def escaped (c : Char) : String :=
  if c = '"' then "\\\""
  else if c = '\\' then "\\\\"
  else if c = '\n' then "\\n"
  else if c = '\t' then "\\t"
  else if c = '\r' then "\\r"
  else if c = '\x00' then "\\0"
  else if isVisible c then c.toString
  else "\\u\x7b" ++ String.ofList (Nat.toDigits 16 c.toNat) ++ "\x7d"

def quoted (text : String) : String :=
  "\"" ++ String.join (text.toList.map escaped) ++ "\""

def quotedList (texts : List String) : String :=
  "[" ++ ", ".intercalate (texts.map quoted) ++ "]"

end ClassCompiler.Text
