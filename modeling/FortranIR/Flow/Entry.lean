import FortranIR.Flow.Unit

/-
  This file defines what the entry points of a subprogram have
  in common.

  Main declarations:
    * `FunctionUnit.firstEvaluation`
    * `FunctionUnit.withEntries`
-/

namespace FortranIR

namespace FunctionUnit

variable (entries : List EntryPoint)

/-
  The evaluation that the entry points branch to: the first one,
  the first one in it, or the one behind an entry statement.
-/
def firstEvaluation (u : FunctionUnit) : Except Fault EvalId := do
  let top := u.outline.map Outline.root
  let first ← entry top 0
  let e ← u.eval first
  match e.children with
  | child :: _ => return child
  | [] =>
    if e.entrySymbol?.isSome then u.next first else return first

structure EntryPoint where
  args : List SymbolId
  result : Option (SymbolId × Nat)

def entryPoint (scope : Scope) (symbol : Option SymbolId) : Except Fault EntryPoint := do
  let s ← scope.symbol (← Fault.missingEntrySymbol.orElse symbol)
  match s.details with
  | .subprogram d =>
    let result ← d.result.mapM fun r => return (r, (← scope.symbol r).size)
    return ⟨d.args.filterMap id, result⟩
  | _ => throw (.notSubprogram s.name)

/- The larger one of two results; the first one of equal size. -/
def larger (best : Option (SymbolId × Nat)) (result : SymbolId × Nat) : Option (SymbolId × Nat) :=
  match best with
  | none => some result
  | some other => if other.2 < result.2 then some result else best

def largestResult : Option SymbolId :=
  ((entries.filterMap EntryPoint.result).foldl larger none).map Prod.fst

def argumentCounts : Keyed Nat :=
  (entries.flatMap EntryPoint.args).foldl (fun counts arg => counts.adjust arg 0 (· + 1)) []

/- The dummy arguments that do not appear once for each entry. -/
def partialArguments : List SymbolId :=
  ((argumentCounts entries).filter fun c =>
    c.2 < entries.length).map Prod.fst

/-
  The unit with what its entry points have in common. A unit
  with one entry point has nothing to add.
-/
def withEntries (u : FunctionUnit) : Except Fault FunctionUnit := do
  if u.entries.length = 1 then return u
  let first ← u.firstEvaluation
  let entries ← u.entries.mapM fun e => entryPoint u.source.scope e.1
  return { u with
    evals := u.evals.modify first fun e => { e with isNewBlock := true },
    primaryResult := largestResult entries,
    partialArgs := partialArguments entries }

end FunctionUnit

end FortranIR
