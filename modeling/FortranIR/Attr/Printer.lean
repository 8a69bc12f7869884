import FortranIR.Attr.Basic
import FortranIR.Number.Decimal
import FortranIR.Ty.Printer

/-
  This file defines the text form of attributes.

  Main declarations:
    * `Attr.escape`
    * `Attr.render`
-/

namespace FortranIR

namespace Attr

/-
  A character of a string. Quotes and backslashes stand behind a
  backslash, line feeds and tabs have letters, and the other
  controls of ASCII two hexadecimal digits.
-/
def escape (c : Char) : String := if c = '"' then "\\\""
  else if c = '\\' then "\\\\"
  else if c = '\n' then "\\n"
  else if c = '\t' then "\\t"
  else if c.toNat < 0x20 ∨ c.toNat = 0x7F then "\\" ++ String.ofList (Binary64.hexDigits 2 c.toNat)
  else c.toString

def renderString (s : String) : String := "\"" ++ String.join (s.toList.map escape) ++ "\""

/-
  A float: finite ones by their shortest numeral, the others by
  their bits.
-/
def renderFloat (x : Binary64) : String := if x.IsFinite then x.render else x.hex

mutual

def render (table : RecordTable) : Attr → String
  | unit => "unit"
  | bool b => if b then "true" else "false"
  | int n => toString n.toInt
  | float x => renderFloat x
  | str s => renderString s
  | type t => t.render table
  | symbol s => "@" ++ s
  | array as => "[" ++ Ty.commas (renderList table as) ++ "]"
  | ints ns => "dense<" ++ Ty.commas (ns.map fun n => toString n.toInt) ++ ">"
  | case tag => tag.name

def renderList (table : RecordTable) : List Attr → List String
  | [] => []
  | a :: as => render table a :: renderList table as

end

end Attr

end FortranIR
