import FortranIR.Module.Basic
import FortranIR.Segments

/-
  This file divides the operands of branches and loops into
  their parts.

  The operands of a multi-way branch are its selector, the
  operands that its cases compare with, and the arguments of its
  successors. Attributes hold the sizes of these segments.

  Main declarations:
    * `SelectParts`
    * `Module.compareOperands`
-/

namespace FortranIR

----
-- Multi-way branches
----

structure SelectParts where
  selector : ValueId
  cases : List Attr
  compare : Segments ValueId
  targets : Segments ValueId
  dests : List BlockId
deriving DecidableEq, Repr

/-
  The sizes in an attribute of an operation, or a complaint
  about it.
-/
def Operation.offsets (op : Operation) (name : String) : Except String (List Nat) :=
  match (op.attr? name).bind Attr.ints? with
  | none => .error s!"expected `{name}` attribute"
  | some ns =>
    if ns.all fun n => decide (0 ≤ n) then .ok (ns.map fun n => n.toInt.toNat)
    else .error s!"negative offset in `{name}`"

/- A complaint or a fault, on the way to an answer. -/
abbrev Complaining := ExceptT String (Except Fault)

def complain {α : Type} (message : String) : Complaining α := ExceptT.mk (.ok (.error message))

def orComplain {α : Type} (f : String → String) : Except String α → Complaining α
  | .ok a => pure a
  | .error message => complain (f message)

def splitOrComplain {α : Type} (f : String → String) (items : List α)
    (sizes : List Nat) : Complaining (Segments α) := do
  match ← (Segments.split items sizes : Except Fault _) with
  | .ok segments => pure segments
  | .error e => complain (f e.message)

namespace Operation

def selectParts (op : Operation) : Complaining SelectParts := do
  match op.operands with
  | [] => complain "expected a selector operand"
  | selector :: rest =>
    let cases ←
      match (op.attr? "cases").bind Attr.array? with
      | none => complain "expected `cases` attribute"
      | some cases => pure cases
    let successors := op.successors.length
    if cases.length ≠ successors then
      complain s!"{cases.length} cases for {successors} successors"
    let compareSizes ← orComplain id (op.offsets "compare_operand_offsets")
    let targetSizes ← orComplain id (op.offsets "target_operand_offsets")
    if compareSizes.length ≠ cases.length ∨ targetSizes.length ≠ cases.length then
      complain "offset attributes must have one entry per case"
    let covered ← (checkedSum compareSizes : Except Fault Nat)
    if rest.length < covered then
      complain (s!"compare offsets cover {covered} operands, "
        ++ s!"but only {rest.length} are present")
    let compare ← splitOrComplain id (rest.take covered) compareSizes
    let targets ←
      splitOrComplain ("target operand offsets: " ++ ·) (rest.drop covered) targetSizes
    return { selector, cases, compare, targets, dests := op.successors }

end Operation

namespace Module

variable (m : Module) (o : OpId)

def trySelectParts : Except Fault (Except String SelectParts) := do
  let op ← m.op o
  if !op.kind.isSelect then throw .notSelect
  op.selectParts.run

/- The parts of a well-formed multi-way branch. -/
def selectParts : Except Fault SelectParts := do
  match ← m.trySelectParts o with
  | .ok parts => return parts
  | .error message => throw (.malformedSelect message)

def successorOperands (i : Nat) : Except Fault (List ValueId) := do
  let op ← m.op o
  match op.kind with
  | .br =>
    if i ≠ 0 then throw .branchHasOneSuccessor
    return op.operands
  | .condBr =>
    let sizes := (op.offsets "target_operand_offsets").toOption
    match op.operands with
    | [] => throw .index
    | _ :: rest =>
      match ← Segments.split rest (sizes.getD []) with
      | .ok targets => targets.segment i
      | .error _ => throw .malformedBranchOffsets
  | kind =>
    if kind.isSelect then (← m.selectParts o).targets.segment i else throw (.notBranch kind.name)

def compareOperands (i : Nat) : Except Fault (List ValueId) := do
  (← m.selectParts o).compare.segment i

end Module

----
-- Loops
----

/-
  The parts of a loop: its bounds, the first condition of a loop
  that iterates while it holds, the values it carries, and the
  arguments of its body.
-/
structure LoopParts where
  lower : ValueId
  upper : ValueId
  step : ValueId
  iterateIn : Option ValueId
  inits : List ValueId
  body : Option BlockId
  args : List ValueId
deriving DecidableEq, Repr

namespace LoopParts

/- The number of arguments in front of the carried values. -/
def leading (p : LoopParts) : Nat := if p.iterateIn.isSome then 2 else 1

def carried (p : LoopParts) : List ValueId := p.args.drop p.leading

end LoopParts

namespace Module

def loopBody (m : Module) (op : Operation) : Except Fault (Option BlockId × List ValueId) := do
  match op.regions with
  | [] => return (none, [])
  | r :: _ =>
    match (← m.region r).firstBlock? with
    | none => return (none, [])
    | some b => return (some b, (← m.block b).args)

def loopParts (m : Module) (o : OpId) : Except Fault LoopParts := do
  let op ← m.op o
  match op.kind, op.operands with
  | .doLoop, lower :: upper :: step :: inits => do
      let (body, args) ← m.loopBody op
      return { lower, upper, step, iterateIn := none, inits, body, args }
  | .iterateWhile, lower :: upper :: step :: ok :: inits => do
      let (body, args) ← m.loopBody op
      return { lower, upper, step, iterateIn := some ok, inits, body, args }
  | .doLoop, _ => throw .missingLoopBounds
  | .iterateWhile, _ => throw .missingLoopBounds
  | kind, _ => throw (.notLoop kind.name)

end Module

end FortranIR
