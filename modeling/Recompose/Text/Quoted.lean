import Recompose.Text.Hex
import Recompose.Text.Unprintable

/-!
Text between double quotes on one line. A quote and a backslash take a backslash, the usual controls
have a letter, and what does not show is written by its code point.
-/

namespace Recompose.Text.Quoted

def escape (c : Char) : String :=
  if c = '\x00' then "\\0"
  else if c = '\t' then "\\t"
  else if c = '\n' then "\\n"
  else if c = '\r' then "\\r"
  else if c = '"' then "\\\""
  else if c = '\\' then "\\\\"
  else if isUnprintable c then "\\u\x7b" ++ Hex.lower c.toNat ++ "\x7d"
  else String.singleton c

def quote (s : String) : String :=
  "\"" ++ String.join (s.toList.map escape) ++ "\""

end Recompose.Text.Quoted
