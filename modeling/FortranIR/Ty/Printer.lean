import FortranIR.Ty.Record

/-
  This file defines the text form of types.

  The body of a record is written at its first occurrence on the
  way into a type; below it the record is written by its name.

  Main declarations:
    * `Extent.render`
    * `Ty.render`
-/

namespace FortranIR

/- An extent and the mark that divides it from the next one. -/
def Extent.render : Extent → String
  | known n => s!"{n} x "
  | unknown => "? x "

namespace Ty

def commas (parts : List String) : String := ", ".intercalate parts

/- The extents of a shape, or the mark of an assumed rank. -/
def renderShape (shape : List Extent) : String := if shape.isEmpty then "* x "
  else String.join (shape.map Extent.render)

def renderReal (kind : UInt8) : String := if kind = 2 then "f16"
  else if kind = 3 then "bf16"
  else if kind = 4 then "f32"
  else if kind = 8 then "f64"
  else s!"!fir.real<{kind}>"

mutual

/-
  The text of a type, if `record` gives what stands between the
  brackets of a record.
-/
def renderWith (record : String → String) : Ty → String
  | integer width => s!"i{width}"
  | index => "index"
  | real kind => renderReal kind
  | complex kind => s!"!fir.complex<{kind}>"
  | logical kind => s!"!fir.logical<{kind}>"
  | character kind => s!"!fir.char<{kind}>"
  | ref t => "!fir.ref<" ++ renderWith record t ++ ">"
  | ptr t => "!fir.ptr<" ++ renderWith record t ++ ">"
  | heap t => "!fir.heap<" ++ renderWith record t ++ ">"
  | box t => "!fir.box<" ++ renderWith record t ++ ">"
  | typeDesc t => "!fir.tdesc<" ++ renderWith record t ++ ">"
  | sequence shape element =>
    "!fir.array<" ++ renderShape shape ++ renderWith record element ++ ">"
  | .record name => "!fir.type<" ++ record name ++ ">"
  | function params results =>
    "(" ++ commas (renderListWith record params) ++ ") -> ("
      ++ commas (renderListWith record results) ++ ")"
  | void => "none"

def renderListWith (record : String → String) : List Ty → List String
  | [] => []
  | t :: ts => renderWith record t :: renderListWith record ts

end

/-
  What stands between the brackets of a record: its name, and
  its body if it has one and is not among the records `inside`
  of which the text is.
-/
def renderRecord (table : RecordTable) : Nat → List String → String → String
  | 0, _, name => name
  | fuel + 1, inside, name =>
    if inside.contains name then name
    else
      match table.find? name with
      | none => name
      | some body =>
        let count :=
          if body.lenParams = 0 then "" else s!"({body.lenParams})"
        let fields := body.fields.map fun field =>
          field.1 ++ " : " ++ renderWith (renderRecord table fuel (name :: inside)) field.2
        name ++ count ++ "\x7b" ++ commas fields ++ "\x7d"

/-
  The text of a type. Bodies are nested at most as deep as there
  are records in the table.
-/
def render (table : RecordTable) (t : Ty) : String :=
  t.renderWith (renderRecord table table.bodies.length [])

end Ty

end FortranIR
