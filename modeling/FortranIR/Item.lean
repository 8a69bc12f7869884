import FortranIR.Attr.Basic
import FortranIR.Location
import FortranIR.Operation.Kind

/-
  This file defines the items of the text form: operations with
  the names that stand in the text, before the names are
  resolved.

  The operands of an operation are a flat list, which includes
  the arguments of its successors; attributes hold the sizes of
  the parts.

  Main declarations:
    * `Name`
    * `BlockText`
-/

namespace FortranIR

structure Name where
  span : Span
  text : String
deriving DecidableEq, Repr

structure TypedName where
  span : Span
  text : String
  type : Ty
deriving DecidableEq, Repr

def Name.typed (n : Name) (t : Ty) : TypedName := { span := n.span, text := n.text, type := t }

/- An operation without its regions. -/
structure OpHead where
  kind : OpKind
  results : List Name := []
  resultTypes : List Ty := []
  operands : List TypedName := []
  attrs : AttrMap := {}
  successors : List Name := []
deriving DecidableEq, Repr

structure BlockHead where
  span : Span
  name : String
  args : List TypedName
deriving DecidableEq, Repr

structure BlockText (α : Type) where
  head : BlockHead
  items : List α

/-
  An operation with its regions, or a piece of text that could
  not be read.
-/
inductive Item where
  | operation (span : Span) (head : OpHead) (regions : List (List (BlockText Item)))
  | error (span : Span)

abbrev RegionText := List (BlockText Item)

end FortranIR
