import FortranIR.Flow.Unit

/-
  This file defines the text of a flow tree.

  Units are numbered in order, and statements begin with their
  place. `^` marks a statement that begins a block, `*` one with
  blocks of its own, `!` what has to be lowered with branches,
  and an arrow points to a control successor or an exit.

  Main declarations:
    * `FunctionUnit.renderStatement`
    * `FlowTree.render`
-/

namespace FortranIR

attribute [local instance (10000)] Applicative.toFunctor

----
-- Evaluations
----

def textIf (condition : Bool) (text : String) : String := if condition then text else ""

def Evaluation.title (e : Evaluation) : String := e.node.name ++ textIf e.isUnstructured "!"

def indentation (depth : Nat) : String := String.ofList (List.replicate (2 * depth) ' ')

namespace FunctionUnit

def arrow (u : FunctionUnit) (target : Option EvalId) : String :=
  match target.bind fun id => u.evals[id]? with
  | none => ""
  | some e => s!" -> {e.place}"

/- The evaluation that the text of a statement points to. -/
def shownNext (e : Evaluation) : Option EvalId := if e.isExecutable then e.controlNext
  else if e.entrySymbol?.isSome then e.lexicalNext
  else none

def renderStatement (u : FunctionUnit) (e : Evaluation) : String :=
  textIf (e.place ≠ 0) s!"{e.place} " ++ textIf e.isNewBlock "^" ++ textIf (e.localBlocks ≠ 0) "*"
    ++ e.title
    ++ u.arrow (shownNext e)
    ++ textIf (!e.source.isEmpty) (": " ++ e.source)
    ++ "\n"

mutual

def renderOutline (u : FunctionUnit) (depth : Nat) : Outline EvalId → String
  | .node id nested =>
    match u.evals[id]? with
    | none => ""
    | some e =>
      let blanks := indentation depth
      if e.isStatement then blanks ++ u.renderStatement e
      else
        blanks ++ "<<" ++ e.title ++ ">>" ++ u.arrow e.exit ++ "\n"
          ++ renderOutlines u (depth + 1) nested
          ++ blanks ++ "<<End " ++ e.title ++ ">>\n"

def renderOutlines (u : FunctionUnit) (depth : Nat) : List (Outline EvalId) → String
  | [] => ""
  | t :: rest => renderOutline u depth t ++ renderOutlines u depth rest

end

def kindAndName (u : FunctionUnit) : String :=
  u.source.kind.name ++ " " ++ u.source.name.getD "<anonymous>"

def firstLine (u : FunctionUnit) : String := u.kindAndName ++ textIf
      (u.source.kind ≠ .program && !u.source.header.isEmpty)
      (": " ++ u.source.header)
    ++ "\n"

end FunctionUnit

----
-- Units
----

namespace FlowTree

def nextNumber : StateM Nat String := modifyGet fun n => (toString n, n + 1)

mutual

def functionText : Outline FunctionUnit → StateM Nat String
  | .node u nested => do
      let number ← nextNumber
      let inner ← functionsText nested
      return number ++ " " ++ u.firstLine ++ u.renderOutlines 1 u.outline
        ++ textIf (!nested.isEmpty) ("\nContains\n" ++ inner ++ "EndContains\n")
        ++ "End" ++ u.kindAndName ++ "\n\n"

def functionsText : List (Outline FunctionUnit) → StateM Nat String
  | [] => return ""
  | t :: rest => do
      let first ← functionText t
      return first ++ (← functionsText rest)

end

def unitText : FlowUnit → StateM Nat String
  | .function f => functionText f
  | .module _ _ contains _ => do
      let number ← nextNumber
      let inner ← functionsText contains
      return number ++ " ModuleLike:\nContains\n" ++ inner ++ "EndContains\nEndModuleLike\n\n"
  | .blockData _ => do
      let number ← nextNumber
      return number ++ " BlockData:\nEndBlockData\n\n"

def renderFunction (f : Outline FunctionUnit) : String := (functionText f).run' 1

def render (tree : FlowTree) : String := String.join ((tree.mapM unitText).run' 1)

end FlowTree

end FortranIR
