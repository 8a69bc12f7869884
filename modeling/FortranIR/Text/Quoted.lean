import FortranIR.Text.Hidden

/-
  This file defines how the text of a string token is quoted in
  messages.

  Quotes, backslashes and the four short escapes stand behind a
  backslash; every other character that does not show by itself
  is written by its code point.

  Main declarations:
    * `escapeChar`
    * `quoted`
-/

namespace FortranIR.Text

/- A lower-case hexadecimal numeral without leading zeros. -/
def hexNumeral (n : Nat) : String := String.ofList (Nat.toDigits 16 n)

def escapeChar (c : Char) : String := if c = '"' then "\\\""
  else if c = '\\' then "\\\\"
  else if c = '\n' then "\\n"
  else if c = '\r' then "\\r"
  else if c = '\t' then "\\t"
  else if c.toNat = 0 then "\\0"
  else if c.toNat < 0x20 ∨ c.toNat = 0x7F ∨ isHidden c then
    "\\u\x7b" ++ hexNumeral c.toNat ++ "\x7d"
  else c.toString

def quoted (s : String) : String := "\"" ++ String.join (s.toList.map escapeChar) ++ "\""

end FortranIR.Text
