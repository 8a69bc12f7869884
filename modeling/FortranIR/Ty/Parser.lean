import FortranIR.Parse

/-
  This file reads types from the text form.

  A record with a body in its text defines the record, or has to
  agree with the body that the record has.

  Main declarations:
    * `Ty.ofWord?`
    * `Parse.signature`
-/

namespace FortranIR

attribute [local instance (10000)] instPowNat

namespace Ty

def widthOf? (digits : List Char) : Option UInt32 := let n := Decimal.ofDigits digits
  if digits.isEmpty || !digits.all Decimal.isDigit then none
  else if n = 0 ∨ 2 ^ (32 : Nat) ≤ n then none
  else some n.toUInt32

def ofWord? (word : String) : Option Ty := if word = "index" then some .index
  else if word = "f16" then some (.real 2)
  else if word = "bf16" then some (.real 3)
  else if word = "f32" then some (.real 4)
  else if word = "f64" then some (.real 8)
  else if word = "none" then some .void
  else
    match word.toList with
    | 'i' :: digits => (widthOf? digits).map .integer
    | _ => none

end Ty

namespace Parse

variable (fuel : Nat) (inner : Parse Ty)

----
-- Intrinsic types
----

/- A type between angle brackets, if `inner` reads types. -/
def wrapped (wrap : Ty → Ty) : Parse Ty := do
  expectChar '<'
  let t ← inner
  expectChar '>'
  return wrap t

def typeKind (make : UInt8 → Ty) : Parse Ty := do
  expectChar '<'
  let place ← span
  let n ← item TokenKind.int? "kind"
  expectChar '>'
  if 0 < n ∧ n < 256 then return make n.toInt.toNat.toUInt8
  else fail place s!"invalid kind {n.toInt}"

----
-- Sequences
----

/-
  The extents of a sequence. The mark of an assumed rank adds no
  extent, and stands before all of them.
-/
def extents : Nat → List Extent → Parse (List Extent)
  | 0, _ => throw (.fault .endless)
  | fuel + 1, shape => do
      let t ← token
      match t.kind with
      | .int n =>
        if 0 ≤ n then
          next
          expectWord "x"
          extents fuel (shape ++ [.known n.toUInt64])
        else fail t.span s!"invalid extent {n.toInt}"
      | .other c =>
        if c = '?' then
          next
          expectWord "x"
          extents fuel (shape ++ [.unknown])
        else if c = '*' ∧ shape = [] then
          next
          expectWord "x"
          extents fuel shape
        else return shape
      | _ => return shape

/- A sequence, behind its name, if `inner` reads types. -/
def sequence : Parse Ty := do
  expectChar '<'
  let shape ← extents fuel []
  let element ← inner
  expectChar '>'
  return .sequence shape element

----
-- Records
----

def lenParams : Parse Nat := do
  if ← isAtChar '(' then
    next
    let place ← span
    let n ← item TokenKind.int? "length parameter count"
    if n < 0 then
      fail place s!"invalid length parameter count {n.toInt}"
    expectChar ')'
    return n.toInt.toNat
  else return 0

def field (inner : Parse Ty) : Parse (String × Ty) := do
  let name ← item TokenKind.ident? "field name"
  expectChar ':'
  let t ← inner
  return (name, t)

def fields? : Parse (Option (List (String × Ty))) := do
  if ← isAtChar '\x7b' then return some (← list fuel '\x7b' '\x7d' (field inner)) else return none

/- Give a record the body that is written at a span. -/
def defineRecord (place : Span) (name : String) (body : RecordBody) : Parse Unit := do
  match (← get).records.define name body with
  | .ok records => modify fun r => { r with records }
  | .error _ => fail place s!"record '{name}' is redefined with a different body"

/- A record, behind its name, if `inner` reads types. -/
def record (fuel : Nat) (inner : Parse Ty) : Parse Ty := do
  let place ← span
  expectChar '<'
  let name ← item TokenKind.ident? "record name"
  let count ← lenParams
  let fields ← fields? fuel inner
  expectChar '>'
  match fields with
  | none => pure ()
  | some fields =>
    let whole := place.extendTo (← get).last
    defineRecord whole name { fields, lenParams := count }
  return .record name

----
-- Types
----

def signatureWith : Parse (List Ty × List Ty) := do
  let params ← list fuel '(' ')' inner
  expect .arrow
  let results ← list fuel '(' ')' inner
  return (params, results)

def namedType (place : Span) (name : String) : Parse Ty :=
  if name = "!fir.ref" then wrapped inner .ref
  else if name = "!fir.ptr" then wrapped inner .ptr
  else if name = "!fir.heap" then wrapped inner .heap
  else if name = "!fir.box" then wrapped inner .box
  else if name = "!fir.tdesc" then wrapped inner .typeDesc
  else if name = "!fir.real" then typeKind .real
  else if name = "!fir.complex" then typeKind .complex
  else if name = "!fir.logical" then typeKind .logical
  else if name = "!fir.char" then typeKind .character
  else if name = "!fir.array" then sequence fuel inner
  else if name = "!fir.type" then record fuel inner
  else fail place s!"unknown type '{name}'"

/- A type, nested at most as deep as `fuel`. -/
def type : Nat → Parse Ty
  | 0 => throw (.fault .endless)
  | fuel + 1 => do
      let t ← token
      match t.kind with
      | .ident word =>
        match Ty.ofWord? word with
        | some ty =>
          next
          return ty
        | none => unexpected "type"
      | .dialect name =>
        next
        namedType fuel (type fuel) t.span name
      | .other c =>
        if c = '(' then
          let (params, results) ← signatureWith fuel (type fuel)
          return .function params results
        else unexpected "type"
      | _ => unexpected "type"

def signature : Parse (List Ty × List Ty) := signatureWith fuel (type fuel)

end Parse

end FortranIR
