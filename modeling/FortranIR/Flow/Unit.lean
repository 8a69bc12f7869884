import FortranIR.Flow.Evaluation
import FortranIR.Storage.Variable

/-
  This file defines the units of a flow tree: subprograms with
  their evaluations, modules and block data.

  Main declarations:
    * `UnitParent`
    * `FunctionUnit.ancestors`
-/

namespace FortranIR

attribute [local instance (10000)] Applicative.toFunctor

----
-- Subprograms
----

/-
  What a subprogram is part of: the program, another subprogram,
  or the module at a place among the units.
-/
inductive UnitParent where
  | program
  | function (name : Option String)
  | module (place : Nat)
deriving DecidableEq, Repr

/-
  A subprogram with its evaluations in the order of the source,
  and the outline that says how they are nested.

  The entry points begin with the subprogram itself; all others
  have an entry statement. Labels are kept for each variable
  that a label is assigned to. The partial arguments are the
  dummy arguments that some entry points do not have, and the
  primary result is the largest result of all entry points.
-/
structure FunctionUnit where
  source : SubprogramHead
  parent : UnitParent
  outline : List (Outline EvalId)
  evals : List Evaluation
  labels : Keyed EvalId
  entries : List (Option SymbolId × Option EvalId)
  assigned : Keyed (List Label) := []
  partialArgs : List SymbolId := []
  primaryResult : Option SymbolId := none
  storage : List Variable := []
  activeEntry : Nat := 0
deriving Repr

namespace FunctionUnit

variable (u : FunctionUnit)

/- The labels of evaluations; the last one of a label counts. -/
def labelsOf (evals : List Evaluation) : Keyed EvalId := evals.zipIdx.foldl (fun labels (e, id) =>
      match e.label with
      | none => labels
      | some l => labels.insert l id)
    []

def entriesOf (evals : List Evaluation) : List (Option SymbolId × Option EvalId) :=
  evals.zipIdx.filterMap fun (e, id) => e.entrySymbol?.map fun symbol => (some symbol, some id)

/- The unit of a subprogram, before its branches are known. -/
def ofHead (parent : UnitParent) (source : SubprogramHead) : FunctionUnit :=
  let numbered := (Layout.body source.body source.finish).run' 0
  let evals := Evaluation.link 0 1 ((Outline.flattenAll numbered).map Prod.snd)
  { source, parent, evals, outline := Outline.mapAll Prod.fst numbered, labels := labelsOf evals,
    entries := (source.symbol?, none) :: entriesOf evals }

def eval (id : EvalId) : Except Fault Evaluation := entry u.evals id

def symbol? : Option SymbolId := (u.entries[u.activeEntry]?).bind Prod.fst

def next (id : EvalId) : Except Fault EvalId := do
  Fault.missingLexicalSuccessor.orElse (← u.eval id).lexicalNext

def exitOf (construct : EvalId) : Except Fault EvalId := do
  Fault.missingConstructExit.orElse (← u.eval construct).exit

/-
  The next executable evaluation; if that only leaves its
  construct, the exit of the construct.
-/
def nextBeyondNops (id : EvalId) : Except Fault EvalId := do
  let next ← u.next id
  let e ← u.eval next
  if e.isNop then u.exitOf (← Fault.missingParentConstruct.orElse e.outer) else return next

/- The constructs and directives around an evaluation. -/
def ancestorsWithin (u : FunctionUnit) : Nat → EvalId → List EvalId
  | 0, _ => []
  | fuel + 1, id =>
    match (u.evals[id]?).bind Evaluation.outer with
    | none => []
    | some outer => outer :: u.ancestorsWithin fuel outer

/-
  The constructs and directives around an evaluation, the
  innermost one first. Each has a smaller number than what it
  is around.
-/
def ancestors (id : EvalId) : List EvalId := u.ancestorsWithin id id

end FunctionUnit

----
-- Trees
----

/- A unit of a tree, with the subprograms that it contains. -/
inductive FlowUnit where
  | function (f : Outline FunctionUnit)
  | module (name : String) (scope : Scope) (contains : List (Outline FunctionUnit))
      (storage : List Variable)
  | blockData (name : Option String)
deriving Repr

abbrev FlowTree := List FlowUnit

end FortranIR
