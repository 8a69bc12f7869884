/-
  This file defines the faults that end an operation of the
  library before it has an answer, and their wordings.

  A fault is a broken promise of the caller: an entity that is
  gone, a list that is too short, a sum that leaves the 64-bit
  range. Complaints about an input are not faults; they are
  values of the module that checks the input.

  Main declarations:
    * `Fault`
    * `Fault.orElse`
-/

namespace FortranIR

attribute [local instance (10000)] instPowNat

----
-- Faults
----

/-
  The faults, grouped by the part of the library that raises
  them.
-/
inductive Fault where
  /- Machine words, lists and texts. -/
  | index
  | overflow
  | charBoundary
  | endless
  /- Entities of a module. -/
  | missingOperation
  | missingValue
  | missingUse
  | missingBlock
  | missingRegion
  | blockAlreadyPlaced
  | operationAlreadyPlaced
  | operationAlreadyInBlock
  | notPlaceholder
  | placeholderInUse
  | constantNeedsOneResult
  | constantWithRegions
  | resultCount
  | resultGone
  | resultInUse
  | regionGone
  | blockGone
  /- Operand partitions of branches and loops. -/
  | notSelect
  | malformedSelect (reason : String)
  | branchHasOneSuccessor
  | malformedBranchOffsets
  | notBranch (kind : String)
  | notLoop (kind : String)
  | missingLoopBounds
  /- Construction of operations. -/
  | notBinary
  | selectKindExpected
  | caseOperandCount (tag : String)
  | noInsertionPoint
  | notFunctionType
  | noEntryBlock
  /- Record types. -/
  | notRecord
  | recordRedefined (name : String)
  /- Printed names. -/
  | unnamedBlock
  /- Control flow of source units. -/
  | missingParentConstruct
  | missingLexicalSuccessor
  | missingConstructExit
  | missingLoopEnd
  | missingConstructEnd
  | missingGuard
  | missingLoopConstruct (statement : String)
  | missingDoStatement
  | missingLabel (label : Nat)
  | missingEntrySymbol
  | notSubprogram (name : String)
  /- Scopes and storage. -/
  | symbolExists (name : String)
  | derivedTypeSymbol (name : String)
  | missingStore
  | derivedDefaultKind
  /- Calls of intrinsic procedures. -/
  | wrapperType (name : String)
deriving DecidableEq, Repr, Inhabited

namespace Fault

/-
  The wording of a fault. The four faults of machine words,
  lists and texts have none.
-/
def message? : Fault → Option String
  | index => none
  | overflow => none
  | charBoundary => none
  | endless => none
  | missingOperation => some "`op` does not exist"
  | missingValue => some "`value` does not exist"
  | missingUse => some "value does not exist"
  | missingBlock => some "`block` does not exist"
  | missingRegion => some "`region` does not exist"
  | blockAlreadyPlaced => some "`block` is already placed"
  | operationAlreadyPlaced => some "`op` is already placed"
  | operationAlreadyInBlock => some "`op` is already in the block"
  | notPlaceholder => some "`value` is not a placeholder"
  | placeholderInUse => some "`value` is used by other operations"
  | constantNeedsOneResult => some "`op` must have exactly one result"
  | constantWithRegions => some "`op` must not have regions"
  | resultCount => some "expected exactly one result"
  | resultGone => some "result does not exist"
  | resultInUse => some "result is used by other operations"
  | regionGone => some "region does not exist"
  | blockGone => some "block does not exist"
  | notSelect => some "`op` is not a multi-way branch"
  | malformedSelect reason => some s!"malformed multi-way branch: {reason}"
  | branchHasOneSuccessor => some "`br` has only one successor"
  | malformedBranchOffsets => some "malformed `cond_br` offsets"
  | notBranch kind => some s!"`{kind}` is not a branch"
  | notLoop kind => some s!"`{kind}` is not a loop"
  | missingLoopBounds => some "loop bounds are missing"
  | notBinary => some "`kind` must be a binary operation"
  | selectKindExpected => some "`kind` must be a multi-way branch"
  | caseOperandCount tag => some s!"compare operands do not match case `{tag}`"
  | noInsertionPoint => some "no insertion point to pop"
  | notFunctionType => some "`func` does not have a function type"
  | noEntryBlock => some "no entry block"
  | notRecord => some "expected a record type"
  | recordRedefined name => some s!"record `{name}` is already defined"
  | unnamedBlock => some "block name does not exist"
  | missingParentConstruct => some "parent construct does not exist"
  | missingLexicalSuccessor => some "lexical successor does not exist"
  | missingConstructExit => some "construct exit does not exist"
  | missingLoopEnd => some "end of loop does not exist"
  | missingConstructEnd => some "end of construct does not exist"
  | missingGuard => some "previous construct statement does not exist"
  | missingLoopConstruct statement => some s!"construct of {statement} does not exist"
  | missingDoStatement => some "loop does not begin with a DO statement"
  | missingLabel label => some s!"label {label} does not exist"
  | missingEntrySymbol => some "entry symbol does not exist"
  | notSubprogram name => some s!"'{name}' is not a subprogram"
  | symbolExists name => some s!"symbol '{name}' already exists"
  | derivedTypeSymbol name => some s!"derived type '{name}' can not be analyzed"
  | missingStore => some "interval store does not exist"
  | derivedDefaultKind => some "derived types have no default kind"
  | wrapperType name => some s!"wrapper `{name}` has another type"

end Fault

----
-- Partial results
----

def Fault.orElse {α : Type} (fault : Fault) : Option α → Except Fault α
  | some a => .ok a
  | none => .error fault

def entry {α : Type} (xs : List α) (i : Nat) : Except Fault α := Fault.index.orElse xs[i]?

/-
  Sums and differences of unsigned 64-bit words.
-/
def checkedAdd (a b : Nat) : Except Fault Nat :=
  if a + b < 2 ^ (64 : Nat) then .ok (a + b) else .error .overflow

def checkedSum : List Nat → Except Fault Nat
  | xs => xs.foldlM checkedAdd 0

/- Signed 64-bit words, as exact integers. -/
def checkedInt (i : Int) : Except Fault Int := if -(2 ^ (63 : Nat)) ≤ i ∧ i < 2 ^ (63 : Nat) then .ok i
  else .error .overflow

end FortranIR
