import FortranIR.Attr.Basic
import FortranIR.Ty.Parser

/-
  This file reads attributes from the text form.

  Main declarations:
    * `Parse.attr`
    * `Parse.attrMap`
-/

namespace FortranIR

namespace Parse

/- Go past a token that is an attribute by itself. -/
def plainAttr (a : Attr) : Parse Attr := do
  next
  return a

def wordAttr (fuel : Nat) (word : String) : Parse Attr := do
  if word = "unit" then plainAttr .unit
  else if word = "true" then plainAttr (.bool true)
  else if word = "false" then plainAttr (.bool false)
  else if word = "dense" then
    next
    return .ints (← list fuel '<' '>' (item TokenKind.int? "integer"))
  else return .type (← type fuel)

/- An attribute, nested at most as deep as `fuel`. -/
def attr : Nat → Parse Attr
  | 0 => throw (.fault .endless)
  | fuel + 1 => do
      let t ← token
      match t.kind with
      | .ident word => wordAttr fuel word
      | .int n => plainAttr (.int n)
      | .float x => plainAttr (.float x)
      | .str s => plainAttr (.str s)
      | .symbol s => plainAttr (.symbol (s.drop 1).toString)
      | .attr name =>
        match CaseTag.ofName? name with
        | some tag => plainAttr (.case tag)
        | none => fail t.span s!"unknown attribute '{name}'"
      | .dialect _ => return .type (← type fuel)
      | .other c =>
        if c = '[' then return .array (← list fuel '[' ']' (attr fuel))
        else if c = '(' then return .type (← type fuel)
        else unexpected "attribute"
      | _ => unexpected "attribute"

/- An attribute with its name; a name alone is a flag. -/
def namedAttr (fuel : Nat) : Parse (Span × String × Attr) := do
  let place ← span
  let name ← item TokenKind.ident? "attribute name"
  if ← isAtChar '=' then
    next
    return (place, name, ← attr fuel)
  else return (place, name, .unit)

/- Collect named attributes, and warn of names that come twice. -/
def collectAttrs (attrs : AttrMap) : List (Span × String × Attr) → Parse AttrMap
  | [] => return attrs
  | (place, name, a) :: rest => do
      if (attrs.get? name).isSome then
        log (Log.report .warning (some place) (s!"attribute '{name}' is redefined, "
            ++ "the last one is used"))
      collectAttrs (attrs.insert name a) rest

def attrMap (fuel : Nat) : Parse AttrMap := do
  let entries ← list fuel '\x7b' '\x7d' (namedAttr fuel)
  collectAttrs {} entries

end Parse

end FortranIR
