import FunImp.Text.Unprintable

/-!
# Quoted text

A text between double quotes, with every character escaped that would end the quote or could
not be seen.
-/

namespace FunImp.Quoted

/-- The hexadecimal digits of a number, without leading zeros. -/
def hexDigits (n : Nat) : String :=
  .ofList (Nat.toDigits 16 n)

def escape (c : Char) : String :=
  if c = '"' then "\\\""
  else if c = '\\' then "\\\\"
  else if c = '\n' then "\\n"
  else if c = '\t' then "\\t"
  else if c = '\r' then "\\r"
  else if c = '\x00' then "\\0"
  else if isUnprintable c then "\\u\x7b" ++ hexDigits c.toNat ++ "\x7d"
  else c.toString

def encode (text : String) : String :=
  "\"" ++ String.join (text.toList.map escape) ++ "\""

end FunImp.Quoted
