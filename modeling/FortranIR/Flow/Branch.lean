import FortranIR.Flow.Unit

/-
  This file defines the analysis of the branches of a
  subprogram.

  The analysis sets the control successors of evaluations and
  the exits of constructs. It marks the evaluations that begin a
  block, and those that can only be lowered with branches.

  Main declarations:
    * `FlowOptions`
    * `Analyze.guard`
-/

namespace FortranIR

----
-- Steps
----

/-
  Whether constructs without branches may keep their structure.
-/
structure FlowOptions where
  structured : Bool := true
deriving DecidableEq, Repr

def Evaluation.needsBranches (options : FlowOptions) (e : Evaluation) : Bool :=
  e.isUnstructured || !options.structured

/-
  The unit under analysis, the constructs by their names, the
  latest one first, and the loops around the current evaluation,
  the innermost one first.
-/
structure Analysis where
  unit : FunctionUnit
  names : List (String × EvalId) := []
  loops : List EvalId := []

abbrev Analyze := EStateM Fault Analysis

namespace Analyze

variable (options : FlowOptions) (id : EvalId) (parent : Option EvalId)

def look {α : Type} (f : FunctionUnit → Except Fault α) : Analyze α := do
  match f (← get).unit with
  | .ok a => return a
  | .error fault => throw fault

def mark (f : Evaluation → Evaluation) : Analyze Unit := modify fun a =>
    { a with
      unit := { a.unit with evals := a.unit.evals.modify id f } }

def beginBlock : Analyze Unit := mark id fun e => { e with isNewBlock := true }

def unstructure : Analyze Unit := mark id fun e => { e with isUnstructured := true }

def setControl (target : Option EvalId) : Analyze Unit :=
  mark id fun e => { e with controlNext := target }

/- Set the control successor of an evaluation without one. -/
def setFirstControl (id target : EvalId) : Analyze Unit := mark id fun e =>
    { e with controlNext := some (e.controlNext.getD target) }

def needsBranches : Analyze Bool := do
  return (← look (·.eval id)).needsBranches options

def beginBlockAfter : Analyze Unit := do
  beginBlock (← look (·.nextBeyondNops id))

----
-- Branches
----

/-
  The construct that a branch to an evaluation enters. A branch
  to the first statement of a construct does not enter it.
-/
def entered? (u : FunctionUnit) (target : EvalId) : Except Fault (Option EvalId) := do
  let e ← u.eval target
  match e.outer with
  | none => return none
  | some construct =>
    let c ← u.eval construct
    if e.isGuard && c.children.head? = some target then return c.outer else return some construct

/-
  A branch from an evaluation to another one. A branch into the
  body of a construct unstructures all that is around its
  target.
-/
def branchTo (source target : EvalId) : Analyze Unit := do
  unstructure source
  setFirstControl source target
  beginBlock target
  let u := (← get).unit
  match ← look (entered? · target) with
  | none => return
  | some construct =>
    if !(u.ancestors source).contains construct then
      (target :: u.ancestors target).forM unstructure

def labelled (label : Label) : Analyze EvalId := look fun u =>
    (Fault.missingLabel label).orElse (u.labels.find? label)

def branchToLabel (source : EvalId) (label : Label) : Analyze Unit := do
  branchTo source (← labelled label)

def loopOf (name : Option String) (statement : String) : Analyze EvalId := do
  let a ← get
  let construct :=
    match name with
    | some n => a.names.lookup n
    | none => a.loops.head?
  look fun _ => (Fault.missingLoopConstruct statement).orElse construct

----
-- Actions
----

/- The format is a label that an integer variable holds. -/
def format (id : EvalId) : Format → Analyze Unit
  | .expr .integer => unstructure id
  | _ => return

def ioSpec (id : EvalId) : IoSpec → Analyze Unit
  | .err label => branchToLabel id label
  | .eor label => branchToLabel id label
  | .finish label => branchToLabel id label
  | .format f => format id f
  | .other => return

/-
  A label is assigned to a variable. A branch may go to its
  statement, unless that is a format.
-/
def assign (label : Label) (symbol : SymbolId) : Analyze Unit := do
  let target ← labelled label
  match (← look (·.eval target)).node with
  | .nonExecutable .format => pure ()
  | _ => beginBlock target
  let add (labels : List Label) :=
    if labels.contains label then labels else (label :: labels).mergeSort
  modify fun a =>
    { a with
      unit :=
        { a.unit with
          assigned := a.unit.assigned.adjust symbol [] add } }

/-
  The end of the program or subprogram. What follows begins a
  block, unless it is the end statement.
-/
def leave : Analyze Unit := do
  unstructure id
  let next ← look (·.next id)
  if (← look (·.eval next)).lexicalNext.isSome then
    beginBlockAfter id

def action (id : EvalId) : Action → Analyze Unit
  | .call returns => returns.forM (branchToLabel id)
  | .cycle name => do
      let construct ← loopOf name "CYCLE"
      let children := (← look (·.eval construct)).children
      let last ← look fun _ => Fault.missingLoopEnd.orElse children.getLast?
      branchTo id last
  | .exit name => do
      let construct ← loopOf name "EXIT"
      branchTo id (← look (·.exitOf construct))
  | .goto label => branchToLabel id label
  | .computedGoto labels => labels.forM (branchToLabel id)
  | .arithmeticIf category labels => do
      labels.forM (branchToLabel id)
      if category = .real then
        mark id fun e => { e with localBlocks := e.localBlocks + 1 }
  | .assign label symbol => assign label symbol
  | .assignedGoto _ => do
      unstructure id
      beginBlockAfter id
  | .return => leave id
  | .stop => leave id
  | .io _ fmt specs => do
      fmt.toList.forM (format id)
      specs.forM (ioSpec id)
  | .assignment => return
  | .continue => return
  | .if _ => return
  | .other _ => return

----
-- Constructs
----

def nameConstruct (g : Guard) (construct : EvalId) : Analyze Unit := modify fun a =>
    { a with
      names := (g.construct.map fun n => (n, construct)).toList
        ++ a.names }

/- The guard before falls through to this one. -/
def chain (last : Option EvalId) (id : EvalId) : Analyze Unit := do
  let last ← look fun _ => Fault.missingGuard.orElse last
  setControl last (some id)

def loopBegin (siblings : List EvalId) (id : EvalId) : Option LoopControl → Analyze Unit
  | none => unstructure id
  | some control => do
      beginBlockAfter id
      setControl id siblings.getLast?
      if control = .bounds .real ∨ control = .while then
        unstructure id

/-
  The blocks of a concurrent loop: a header and a body for each
  dimension and one for the mask, where the innermost body and
  the latch are those of the loop itself.
-/
def concurrentBlocks (first id : EvalId) (dims : Nat) (masked : Bool) : Analyze Unit := do
  let count ← look fun _ => do
    checkedAdd (← checkedAdd dims dims) masked.toNat
  mark first fun e => { e with localBlocks := count - 1 }
  mark id fun e =>
    { e with
      localBlocks := dims - 1, isNewBlock := e.isNewBlock || masked }

def loopEnd (construct : EvalId) (siblings : List EvalId)
    (id : EvalId) : Analyze Unit := do
  let first ← look fun _ => entry siblings 0
  setControl id (some first)
  modify fun a => { a with loops := a.loops.tail }
  if ← needsBranches options construct then
    mark first fun e => { e with localBlocks := e.localBlocks + 1 }
    beginBlock (← look (·.exitOf construct))
    match ((← look (·.eval first)).guard?).map Guard.kind with
    | some (.do control) =>
      match control with
      | some (.concurrent dims masked) => concurrentBlocks first id dims masked
      | _ => return
    | _ => throw .missingDoStatement

/-
  A construct statement, where `last` is the guard before it in
  its construct that may fall through to it. The guard that may
  fall through to the next one is returned.
-/
def guard (construct : EvalId) (siblings : List EvalId)
    (last : Option EvalId) (id : EvalId) (g : Guard) : Analyze (Option EvalId) := do
  match g.kind with
  | .do control =>
    nameConstruct g construct
    modify fun a => { a with loops := construct :: a.loops }
    loopBegin siblings id control
    return last
  | .endDo =>
    loopEnd options construct siblings id
    return last
  | .ifThen =>
    nameConstruct g construct
    beginBlock (← look (·.next id))
    return some id
  | .elseIf =>
    beginBlock id
    beginBlock (← look (·.next id))
    chain last id
    return some id
  | .else =>
    beginBlock id
    chain last id
    return none
  | .endIf =>
    let exit ← look (·.exitOf construct)
    if ← needsBranches options construct then
      beginBlock exit
    last.toList.forM fun l => setControl l (some exit)
    return none
  | .selectCase | .selectRank | .selectType =>
    nameConstruct g construct
    return some id
  | .case | .selectRankCase | .typeGuard =>
    beginBlock id
    chain last id
    return some id
  | .endSelect =>
    beginBlockAfter id
    last.toList.forM fun l => do
      setFirstControl l (← look (·.exitOf construct))
    return none
  | .associate | .block | .critical | .changeTeam =>
    nameConstruct g construct
    return last
  | .endAssociate | .endBlock | .endCritical | .endChangeTeam => return last

def construct (kind : ConstructKind) : Analyze Unit := do
  let children := (← look (·.eval id)).children
  let last ← look fun _ => Fault.missingConstructEnd.orElse children.getLast?
  let exit ←
    if kind.endsWithCode then pure last else look (·.nextBeyondNops last)
  mark id fun e => { e with exit := some exit }
  if kind.isSelection then
    unstructure id

----
-- Lists of evaluations
----

/-
  What the evaluations before one of their siblings leave open:
  the guard that may fall through to it, and the `if` whose
  action it is.
-/
structure Open where
  guard : Option EvalId := none
  conditional : Option EvalId := none

/- An evaluation, before what is nested in it. -/
def begin (siblings : List EvalId) (left : Open)
    (id : EvalId) : Analyze Open := do
  match (← look (·.eval id)).node with
  | .action a =>
    action id a
    match a with
    | .if _ => return { left with conditional := some id }
    | _ => return left
  | .guard g =>
    let c ← look fun _ => Fault.missingParentConstruct.orElse parent
    let last ← guard options c siblings left.guard id g
    return { left with guard := last }
  | .construct kind =>
    construct id kind
    return left
  | .nonExecutable _ => return left
  | .directive _ => return left

def finishConditional (id conditional : EvalId) : Analyze Unit := do
  if ← needsBranches options id then
    beginBlock id
    beginBlockAfter id
    unstructure conditional
  setControl conditional (some (← look (·.nextBeyondNops id)))

/- The last evaluation of an arm leaves the construct. -/
def leaveArm (id : EvalId) : Analyze Unit := do
  let e ← look (·.eval id)
  match e.controlNext, e.lexicalNext with
  | none, some next =>
    if (← look (·.eval next)).isIntermediate then
      let c ← look fun _ => Fault.missingParentConstruct.orElse parent
      setControl id (← look (·.eval c)).exit
      beginBlock next
  | _, _ => return

/- An evaluation, behind what is nested in it. -/
def finish (left : Open)
    (id : EvalId) : Analyze Open := do
  let conditional := left.conditional.filter fun c => c ≠ id
  conditional.toList.forM (finishConditional options id)
  leaveArm parent id
  let e ← look (·.eval id)
  if e.isUnstructured then
    parent.toList.forM unstructure
  if e.controlNext.isSome && e.isAction && e.needsBranches options then
    beginBlockAfter id
  if conditional.isSome then return { left with conditional := none } else return left

mutual

/- An evaluation and what is nested in it. -/
def each (options : FlowOptions) (parent : Option EvalId) (siblings : List EvalId)
    (left : Open) : Outline EvalId → Analyze Open
  | .node id nested => do
      let left ← begin options parent siblings left id
      list options (some id) (nested.map Outline.root) {} nested
      finish options parent left id

/- The evaluations of a body, a construct or a directive. -/
def list (options : FlowOptions) (parent : Option EvalId) (siblings : List EvalId)
    (left : Open) : List (Outline EvalId) → Analyze Unit
  | [] => return
  | t :: rest => do
      let left ← each options parent siblings left t
      list options parent siblings left rest

end

end Analyze

def FunctionUnit.analyze (options : FlowOptions) (u : FunctionUnit) : Except Fault FunctionUnit :=
  let ids := u.outline.map Outline.root
  match Analyze.list options none ids {} u.outline { unit := u } with
  | .ok () a => .ok a.unit
  | .error fault _ => .error fault

end FortranIR
