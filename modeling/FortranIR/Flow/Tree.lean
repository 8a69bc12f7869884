import FortranIR.Flow.Branch
import FortranIR.Flow.Entry

/-
  This file defines the flow tree of a program: its subprograms
  with their evaluations, branches, entry points and variables.

  Main declarations:
    * `FunctionUnit.complete`
    * `FlowTree.ofProgram`
-/

namespace FortranIR

/-
  The unit of a subprogram with its branches, entry points and
  variables.
-/
def FunctionUnit.complete (options : FlowOptions)
    (u : FunctionUnit) : Except Fault FunctionUnit := do
  let analyzed ← u.analyze options
  let entered ← analyzed.withEntries
  return { entered with storage := ← u.source.scope.storage }

namespace FlowTree

mutual

/-
  The unit of a subprogram. The subprograms that it contains are
  completed first.
-/
def function (options : FlowOptions) (parent : UnitParent) :
    Subprogram → Except Fault (Outline FunctionUnit)
  | .mk head contains => do
      let nested ← functions options (.function head.name) contains
      let u ← (FunctionUnit.ofHead parent head).complete options
      return .node u nested

def functions (options : FlowOptions) (parent : UnitParent) :
    List Subprogram → Except Fault (List (Outline FunctionUnit))
  | [] => return []
  | s :: rest => do
      let u ← function options parent s
      return u :: (← functions options parent rest)

end

def unit (options : FlowOptions) (place : Nat) : ProgramUnit → Except Fault FlowUnit
  | .subprogram s => return .function (← function options .program s)
  | .module name scope contains => do
      let nested ← functions options (.module place) contains
      return .module name scope nested (← scope.storage)
  | .blockData name _ => return .blockData name

def ofProgram (options : FlowOptions) (units : List ProgramUnit) : Except Fault FlowTree :=
  units.zipIdx.mapM fun e => unit options e.2 e.1

end FlowTree

end FortranIR
