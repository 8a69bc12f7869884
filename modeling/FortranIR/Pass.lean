import FortranIR.Fold
import FortranIR.Module.Edit

/-
  This file defines passes over modules, and the pass that folds
  operations until nothing folds any more.

  Main declarations:
    * `Module.foldOnce`
    * `runPasses`
-/

namespace FortranIR

namespace Module

----
-- Folding
----

/-
  Fold an operation in place: it becomes a constant, or its
  result gives way to another value and it is removed. Constants
  and operations that are gone stay as they are.
-/
def foldOp (o : OpId) : Edit Bool := do
  if !(← get).containsOp o then return false
  if (← Edit.read (·.op o)).kind = .constant then return false
  match ← Edit.read (·.fold? o) with
  | none => return false
  | some (.constant value) =>
    replaceWithConstant o value
    return true
  | some (.value v) =>
    let op ← Edit.read (·.op o)
    let result ← Edit.read fun _ => op.result
    replaceAllUses result v
    let _ ← removeOp o
    return true

def foldEach : List OpId → Edit Nat
  | [] => return 0
  | o :: rest => do
      let changed ← foldOp o
      let n ← foldEach rest
      return if changed then n + 1 else n

def foldOnce : Edit Nat := do
  foldEach (← Edit.read Module.walk)

def foldRounds : Nat → Edit Nat
  | 0 => return 0
  | rounds + 1 => do
      let n ← foldOnce
      if n = 0 then return 0
      return n + (← foldRounds rounds)

/-
  Fold until nothing folds any more. Every round but the last
  takes at least one operation away from those that are not
  constants, which bounds the number of rounds.
-/
def foldAll : Edit Nat := do
  foldRounds ((← get).ops.size + 1)

end Module

----
-- Passes
----

/-
  A pass over a whole module or over every function that has a
  body. Each run gives a note.
-/
inductive Pass (α : Type) where
  | onModule (step : Edit α)
  | onFunction (step : OpId → Edit α)

def Module.definedFunctions (m : Module) : List OpId → Except Fault (List OpId)
  | [] => return []
  | o :: rest => do
      let isFunction := (← m.op o).kind == .func
      let keep ←
        if isFunction then pure (← m.entryBlock? o 0).isSome else pure false
      let others ← m.definedFunctions rest
      return if keep then o :: others else others

def Pass.run {α : Type} : Pass α → Edit (List α)
  | .onModule step => do return [← step]
  | .onFunction step => do
      (← Edit.read fun m => m.definedFunctions m.top).mapM step

def runPasses {α : Type} (passes : List (Pass α)) : Edit (List α) := do
  return (← passes.mapM Pass.run).flatten

end FortranIR
