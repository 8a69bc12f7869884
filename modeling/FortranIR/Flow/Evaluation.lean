import FortranIR.Flow.Outline
import FortranIR.Source.Program

/-
  This file defines evaluations, the steps that a subprogram is
  made of, as they stand before the control flow between them is
  known.

  The evaluations of a subprogram are numbered in the order of
  the source, a construct before what is nested in it. Those
  that are executed are also numbered by themselves, and each of
  them is followed by the next one.

  Main declarations:
    * `EvalId`
    * `Layout.body`
-/

namespace FortranIR

----
-- Evaluations
----

/- The number of an evaluation in its subprogram. -/
abbrev EvalId := Nat

inductive EvalNode where
  | action (a : Action)
  | nonExecutable (s : NonExecutable)
  | guard (g : Guard)
  | construct (kind : ConstructKind)
  | directive (name : String)
deriving Repr

def EvalNode.name : EvalNode → String
  | action a => a.name
  | nonExecutable s => s.name
  | guard g => g.kind.name
  | construct kind => kind.name
  | directive name => name

/-
  A statement, a construct or a directive. `outer` is the
  innermost construct or directive around it. The place among
  executable evaluations is zero for all others.
-/
structure Evaluation where
  node : EvalNode
  source : String := ""
  label : Option Label := none
  outer : Option EvalId := none
  children : List EvalId := []
  place : Nat := 0
  lexicalNext : Option EvalId := none
  controlNext : Option EvalId := none
  exit : Option EvalId := none
  isNewBlock : Bool := false
  isUnstructured : Bool := false
  localBlocks : Nat := 0
deriving Repr

namespace Evaluation

variable (e : Evaluation)

def action? : Option Action := match e.node with
  | .action a => some a
  | _ => none

def guard? : Option Guard := match e.node with
  | .guard g => some g
  | _ => none

def entrySymbol? : Option SymbolId := match e.node with
  | .nonExecutable (.entry symbol) => some symbol
  | _ => none

def isAction : Bool := e.action?.isSome

def isGuard : Bool := e.guard?.isSome

def isNonExecutable : Bool := match e.node with
  | .nonExecutable _ => true
  | _ => false

def isConstruct : Bool := match e.node with
  | .construct _ => true
  | _ => false

def isDirective : Bool := match e.node with
  | .directive _ => true
  | _ => false

def isStatement : Bool := !e.isConstruct && !e.isDirective

def isExecutable : Bool := e.isAction || e.isGuard

/- The evaluation continues a construct with another arm. -/
def isIntermediate : Bool := e.guard?.any fun g => g.kind.isIntermediate

/- Falling into the evaluation only leaves its construct. -/
def isNop : Bool := e.guard?.any fun g => g.kind.isNop

----
-- Source order
----

def firstExecutable? : EvalId → List Evaluation → Option EvalId
  | _, [] => none
  | id, e :: rest =>
    if e.isExecutable then some id else firstExecutable? (id + 1) rest

/-
  Number the executable evaluations from a place on, and let
  each of them, and each entry, be followed by the next one. The
  first evaluation has the number `id`.
-/
def link : EvalId → Nat → List Evaluation → List Evaluation
  | _, _, [] => []
  | id, place, e :: rest =>
    let next := firstExecutable? (id + 1) rest
    if e.isExecutable then { e with place, lexicalNext := next } :: link (id + 1) (place + 1) rest
    else if e.entrySymbol?.isSome then { e with lexicalNext := next } :: link (id + 1) place rest
    else e :: link (id + 1) place rest

end Evaluation

----
-- Layout
----

abbrev Numbered := EvalId × Evaluation

/- A step of the layout; the state is the next number. -/
abbrev Layout := StateM EvalId

namespace Layout

def fresh : Layout EvalId := modifyGet fun n => (n, n + 1)

/- A statement, inside a construct or directive. -/
def statement {α : Type} (outer : Option EvalId) (node : α → EvalNode)
    (s : Statement α) : Layout (Outline Numbered) := do
  let id ← fresh
  return .node (id, { node := node s.stmt, source := s.source, label := s.label, outer }) []

/- The action of an `if`, which follows it and has no label. -/
def conditional (outer : Option EvalId) : Action → Layout (List (Outline Numbered))
  | .if ⟨_, source, a⟩ => do
      let first ← statement outer .action ⟨none, source, a⟩
      return first :: (← conditional outer a)
  | _ => return []

def group (outer : Option EvalId) (node : EvalNode)
    (inside : EvalId → Layout (List (Outline Numbered))) : Layout (Outline Numbered) := do
  let id ← fresh
  let ts ← inside id
  return .node (id, { node, outer, children := ts.map fun t => t.root.1 }) ts

mutual

def node (outer : Option EvalId) : Node → Layout (List (Outline Numbered))
  | .action s => do
      let first ← statement outer .action s
      return first :: (← conditional outer s.stmt)
  | .nonExecutable s => do
      return [← statement outer .nonExecutable s]
  | .construct kind as finish => do
      let t ← group outer (.construct kind) fun id => do
        let ts ← arms id as
        return ts ++ [← statement (some id) .guard finish]
      return [t]
  | .directive name body => do
      return [← group outer (.directive name) fun id =>
        nodes (some id) body]

def nodes (outer : Option EvalId) : List Node → Layout (List (Outline Numbered))
  | [] => return []
  | n :: rest => do
      let ts ← node outer n
      return ts ++ (← nodes outer rest)

def arms (construct : EvalId) : List (Arm Node) → Layout (List (Outline Numbered))
  | [] => return []
  | a :: rest => do
      let ts ← arm construct a
      return ts ++ (← arms construct rest)

def arm (construct : EvalId) : Arm Node → Layout (List (Outline Numbered))
  | ⟨guard, body⟩ => do
      let first ← statement (some construct) .guard guard
      return first :: (← nodes (some construct) body)

end

def endsWithContinue (ts : List (Outline Numbered)) : Bool :=
  match ts.getLast?.bind fun t => t.root.2.action? with
  | some .continue => true
  | _ => false

/-
  The evaluations of a body. The end statement is a target for
  branches, unless the body ends with such a target itself and
  the end statement has no label.
-/
def body (ns : List Node) (finish : Statement Unit) : Layout (List (Outline Numbered)) := do
  let ts ← nodes none ns
  if endsWithContinue ts && finish.label.isNone then return ts
  else return ts ++ [← statement none (fun _ => .action .continue) finish]

end Layout

end FortranIR
