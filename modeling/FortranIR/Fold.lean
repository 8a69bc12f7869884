import FortranIR.Module.Basic
import FortranIR.Operation.Predicate

/-
  This file defines the folding of single operations: the
  constant or the existing value that an operation is known to
  produce.

  Arithmetic and comparisons fold when both operands are
  constants. A conversion folds when it changes nothing, or when
  it undoes a conversion to a boolean. The address in a new
  descriptor folds to the address it was made from.

  Main declarations:
    * `Folded`
    * `Module.fold?`
-/

namespace FortranIR

inductive Folded where
  | value (v : ValueId)
  | constant (a : Attr)
deriving DecidableEq, Repr

abbrev Fold := OptionT (Except Fault)

namespace Fold

def given {α : Type} : Option α → Fold α
  | some a => pure a
  | none => failure

end Fold

namespace Module

variable (m : Module) (op : Operation)

----
-- Constants
----

def definedBy (v : ValueId) : Fold Operation := do
  let o ← Fold.given (← (m.definingOp? v : Except Fault _))
  (m.op o : Except Fault Operation)

/- The attribute of the constant that a value is. -/
def constantOf (v : ValueId) : Fold Attr := do
  let op ← m.definedBy v
  if op.kind = .constant then Fold.given (op.attr? "value") else failure

def constantValue? (v : ValueId) : Except Fault (Option Attr) := (m.constantOf v).run

/- The two constant operands of an operation, read by `get?`. -/
def constantPair {α : Type} (m : Module) (get? : Attr → Option α) (op : Operation) : Fold (α × α) :=
  match op.operands with
  | [l, r] => do
      let a ← Fold.given (get? (← m.constantOf l))
      let b ← Fold.given (get? (← m.constantOf r))
      return (a, b)
  | _ => failure

def wordWidth? : Ty → Option UInt32
  | .integer width => some width
  | .index => some 64
  | _ => none

def predicateOf {α : Type} (ofIndex? : Int64 → Option α) (op : Operation) : Fold α :=
  Fold.given (((op.attr? "predicate").bind Attr.int?).bind ofIndex?)

----
-- Arithmetic and comparisons
----

def truthAttr (b : Bool) : Attr := .int (if b then 1 else 0)

def floatArith (kind : OpKind) (l r : Binary64) : Binary64 := match kind with
  | .addF => l.add r
  | .subF => l.sub r
  | .mulF => l.mul r
  | _ => l.div r

def intArith (kind : OpKind) (l r : Int64) : Int64 := match kind with
  | .addI => l + r
  | .subI => l - r
  | _ => l * r

def foldFloat : Fold Folded := do
  let (l, r) ← m.constantPair Attr.float? op
  return .constant (.float (floatArith op.kind l r))

def foldInt : Fold Folded := do
  let (l, r) ← m.constantPair Attr.int? op
  let v ← (op.result : Except Fault ValueId)
  let t ← (m.typeOf v : Except Fault Ty)
  let width ← Fold.given (wordWidth? t)
  let word ← (truncateWord (intArith op.kind l r) width : Except Fault Int64)
  return .constant (.int word)

def foldCmpF : Fold Folded := do
  let (l, r) ← m.constantPair Attr.float? op
  let p ← predicateOf FloatPredicate.ofIndex? op
  return .constant (truthAttr (p.eval l r))

def foldCmpI : Fold Folded := do
  let (l, r) ← m.constantPair Attr.int? op
  let p ← predicateOf IntPredicate.ofIndex? op
  let v ← (entry op.operands 0 : Except Fault ValueId)
  let t ← (m.typeOf v : Except Fault Ty)
  let width ← Fold.given (wordWidth? t)
  return .constant (truthAttr (p.eval l r width))

----
-- Conversions and addresses
----

def foldConvert : Fold Folded := do
  let v ← Fold.given op.operands.head?
  let result ← (op.result : Except Fault ValueId)
  let target ← (m.typeOf result : Except Fault Ty)
  let type ← (m.typeOf v : Except Fault Ty)
  if type = target then return .value v
  let inner ← m.definedBy v
  if inner.kind = .convert ∧ type = .i1 then
    let source ← (entry inner.operands 0 : Except Fault ValueId)
    if (← (m.typeOf source : Except Fault Ty)) = target then return .value source
  failure

def foldBoxAddr : Fold Folded := do
  let v ← Fold.given op.operands.head?
  let inner ← m.definedBy v
  if inner.kind = .embox then
    let address ← (entry inner.operands 0 : Except Fault ValueId)
    return .value address
  failure

----
-- Operations
----

def fold? (o : OpId) : Except Fault (Option Folded) := do
  let op ← m.op o
  match op.kind with
  | .addF | .subF | .mulF | .divF => (m.foldFloat op).run
  | .addI | .subI | .mulI => (m.foldInt op).run
  | .cmpF => (m.foldCmpF op).run
  | .cmpI => (m.foldCmpI op).run
  | .convert => (m.foldConvert op).run
  | .boxAddr => (m.foldBoxAddr op).run
  | _ => return none

end Module

end FortranIR
