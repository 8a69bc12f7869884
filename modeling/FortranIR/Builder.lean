import FortranIR.Attr.Printer
import FortranIR.Module.Edit
import FortranIR.Module.Parts
import FortranIR.Operation.Predicate

/-
  This file defines builders, which create operations of every
  kind at an insertion point.

  The innermost insertion point is the block at whose end new
  operations are placed; without one they are placed at the
  module level. Builders do not check their operands: that is
  the work of verification.

  Main declarations:
    * `Builder`
    * `Case`
-/

namespace FortranIR

/- A module and the insertion points, the innermost one first. -/
structure Builder where
  module : Module := {}
  points : List BlockId := []

abbrev Build := EStateM Fault Builder

structure Case where
  tag : Attr
  operands : List ValueId := []
  dest : BlockId
  args : List ValueId := []
deriving DecidableEq, Repr

namespace Build

variable (kind : OpKind) (operands : List ValueId) (type : Ty)

----
-- Modules and insertion points
----

def edit {α : Type} (f : Edit α) : Build α := fun b =>
    match f b.module with
    | .ok a m => .ok a { b with module := m }
    | .error fault m => .error fault { b with module := m }

def read {α : Type} (f : Module → Except Fault α) : Build α := edit (Edit.read f)

def push (block : BlockId) : Build Unit := modify fun b => { b with points := block :: b.points }

def pop : Build BlockId := do
  let b ← get
  match b.points with
  | [] => throw .noInsertionPoint
  | block :: rest =>
    set { b with points := rest }
    return block

/- Forget the insertion points above a depth. -/
def restore (depth : Nat) (b : Builder) : Builder :=
  { b with points := b.points.drop (b.points.length - depth) }

/-
  Run a step with a block as insertion point. The insertion
  points are as before afterwards, also behind a fault.
-/
def within {α : Type} (block : BlockId) (f : Build α) : Build α := fun b =>
    let depth := b.points.length
    match f { b with points := block :: b.points } with
    | .ok a after => .ok a (restore depth after)
    | .error fault after => .error fault (restore depth after)

def insert (o : OpId) : Build Unit := do
  match (← get).points.head? with
  | some block => edit (Module.appendOp block o)
  | none => edit (Module.pushTop o)

----
-- Operations of any kind
----

def create (resultTypes : List Ty) (attrs : AttrMap)
    (regionCount : Nat) (successors : List BlockId) : Build OpId := do
  let o ← edit (Module.newOp kind operands resultTypes attrs regionCount successors)
  insert o
  return o

def createPlain (attrs : List (String × Attr))
    (successors : List BlockId) : Build OpId :=
  create kind operands [] (.ofList attrs) 0 successors

def resultOf (o : OpId) : Build ValueId := read fun m => do (← m.op o).result

def createValue
    (attrs : List (String × Attr)) : Build ValueId := do
  let o ← create kind operands [type] (.ofList attrs) 0 []
  resultOf o

def elementOrVoid (v : ValueId) : Build Ty := do
  let t ← read (·.typeOf v)
  return t.element?.getD .void

def sizeWord (n : Nat) : Int64 := Int64.ofNat n

def regionOf (o : OpId) (i : Nat) : Build RegionId := read fun m => do entry (← m.op o).regions i

----
-- Values
----

def constant (value : Attr) : Build ValueId :=
  createValue .constant [] type [("value", value)]

def constInt (n : Int64) : Build ValueId := constant type (.int n)

def constFloat (x : Binary64) : Build ValueId := constant type (.float x)

def undefined : Build ValueId := createValue .undefined [] type []

def allocAttrs (inType : Ty) (name : Option String)
    (lenParams shape : List ValueId) : List (String × Attr) :=
  [ ("in_type", .type inType), ("operand_segment_sizes",
      .ints [sizeWord lenParams.length, sizeWord shape.length]) ]
    ++ (name.map fun s => ("uniq_name", Attr.str s)).toList

def alloca (inType : Ty) (name : Option String) (lenParams shape : List ValueId) : Build ValueId :=
  createValue .alloca (lenParams ++ shape) (.ref inType) (allocAttrs inType name lenParams shape)

def allocMem (inType : Ty) (name : Option String)
    (lenParams shape : List ValueId) : Build ValueId :=
  createValue .allocMem (lenParams ++ shape) (.heap inType) (allocAttrs inType name lenParams shape)

def freeMem (heap : ValueId) : Build OpId := createPlain .freeMem [heap] [] []

def load (memref : ValueId) : Build ValueId := do
  let t ← elementOrVoid memref
  createValue .load [memref] t []

def store (value memref : ValueId) : Build OpId := createPlain .store [value, memref] [] []

def convert (value : ValueId) (type : Ty) : Build ValueId := createValue .convert [value] type []

/- Arithmetic; the result has the type of the left operand. -/
def binary (lhs rhs : ValueId) : Build ValueId := do
  if !(kind.isFloatBinary || kind.isIntBinary) then throw .notBinary
  let t ← read (·.typeOf lhs)
  createValue kind [lhs, rhs] t []

def cmpF (p : FloatPredicate) (lhs rhs : ValueId) : Build ValueId :=
  createValue .cmpF [lhs, rhs] .i1 [("predicate", .int (sizeWord p.index))]

def cmpI (p : IntPredicate) (lhs rhs : ValueId) : Build ValueId := createValue .cmpI [lhs, rhs] .i1
    [("predicate", .int (sizeWord p.index))]

def call (callee : String) (args : List ValueId) (resultTypes : List Ty) : Build OpId :=
  create .call args resultTypes (.ofList [("callee", .symbol callee)]) 0 []

def embox (memref : ValueId) : Build ValueId := do
  let t ← elementOrVoid memref
  createValue .embox [memref] (.box t) []

def boxAddr (boxed : ValueId) : Build ValueId := do
  let t ← elementOrVoid boxed
  createValue .boxAddr [boxed] (.ref t) []

def genTypeDesc : Build ValueId := createValue .genTypeDesc [] (.typeDesc type)
    [("in_type", .type type)]

def addressOf (symbol : String) (type : Ty) : Build ValueId := createValue .addressOf [] (.ref type)
    [("symbol", .symbol symbol)]

----
-- Structured control flow
----

/-
  A conditional. Its regions get an empty block, the second one
  only if it is asked for.
-/
def ifOp (cond : ValueId) (resultTypes : List Ty) (withElse : Bool) : Build OpId := do
  let o ← create .ifOp [cond] resultTypes {} 2 []
  let _ ← edit (Module.newBlock (← regionOf o 0) [])
  if withElse then
    let _ ← edit (Module.newBlock (← regionOf o 1) [])
  return o

/-
  A counting loop. Its body gets the induction variable and the
  carried values.
-/
def doLoop (lower upper step : ValueId) (unordered : Bool) (inits : List ValueId) : Build OpId := do
  let types ← read (·.typesOf inits)
  let attrs := if unordered then [("unordered", Attr.unit)] else []
  let o ← create .doLoop ([lower, upper, step] ++ inits) types (.ofList attrs) 1 []
  let _ ← edit (Module.newBlock (← regionOf o 0) (.index :: types))
  return o

/-
  A counting loop that stops when its condition fails. Its body
  gets the induction variable, the condition and the carried
  values; its first result is the last condition.
-/
def iterateWhile (lower upper step ok : ValueId) (inits : List ValueId) : Build OpId := do
  let types ← read (·.typesOf inits)
  let o ← create .iterateWhile ([lower, upper, step, ok] ++ inits) (.i1 :: types) {} 1 []
  let _ ← edit (Module.newBlock (← regionOf o 0) (.index :: .i1 :: types))
  return o

def result (values : List ValueId) : Build OpId := createPlain .result values [] []

----
-- Branches
----

def expectedOperands (tag : Attr) : Nat :=
  if kind = .selectCase then tag.caseOperands else 0

def sizesAttr (segments : Segments ValueId) : Attr := .ints (segments.sizes.map sizeWord)

/-
  A multi-way branch. Each case has to have as many operands to
  compare with as its tag asks for.
-/
def select (records : RecordTable) (kind : OpKind) (selector : ValueId)
    (cases : List Case) : Build OpId := do
  if !kind.isSelect then throw .selectKindExpected
  match cases.find? fun c => c.operands.length ≠ expectedOperands kind c.tag with
  | some c => throw (.caseOperandCount (c.tag.render records))
  | none =>
    let compare := Segments.ofLists (cases.map Case.operands)
    let targets := Segments.ofLists (cases.map Case.args)
    createPlain kind (selector :: compare.items ++ targets.items)
      [ ("cases", .array (cases.map Case.tag)), ("compare_operand_offsets", sizesAttr compare),
        ("target_operand_offsets", sizesAttr targets) ]
      (cases.map Case.dest)

def br (dest : BlockId) (args : List ValueId) : Build OpId := createPlain .br args [] [dest]

def condBr (cond : ValueId) (thenDest : BlockId) (thenArgs : List ValueId) (elseDest : BlockId)
    (elseArgs : List ValueId) : Build OpId :=
  createPlain .condBr (cond :: thenArgs ++ elseArgs) [("target_operand_offsets",
      .ints [sizeWord thenArgs.length, sizeWord elseArgs.length])]
    [thenDest, elseDest]

def ret (values : List ValueId) : Build OpId := createPlain .ret values [] []

def unreachable : Build OpId := createPlain .unreachable [] [] []

----
-- The module level
----

/- A function without a body. -/
def func (name : String) (type : Ty) : Build OpId := create .func [] []
    (.ofList [("sym_name", .str name), ("type", .type type)]) 1 []

/- The entry block of a function, with its parameters. -/
def funcBody (func : OpId) : Build BlockId := do
  let op ← read (·.op func)
  match ((op.attr? "type").bind Attr.type?).bind Ty.signature? with
  | none => throw .notFunctionType
  | some (params, _) => edit (Module.newBlock (← regionOf func 0) params)

def global (name : String) (type : Ty) (linkage : Option Linkage) (isConstant : Bool)
    (init : Option Attr) : Build OpId :=
  create .global [] [] (.ofList ([("sym_name", .str name), ("type", .type type)]
        ++ (linkage.map fun l => ("linkage", Attr.str l.name)).toList
        ++ (if isConstant then [("constant", Attr.unit)] else [])
        ++ (init.map fun a => ("init_val", a)).toList)) 1 []

def globalBody (global : OpId) : Build BlockId := do
  edit (Module.newBlock (← regionOf global 0) [])

def hasValue (value : ValueId) : Build OpId := createPlain .hasValue [value] [] []

/- A table of type-bound procedures, with an empty block. -/
def dispatchTable (name : String) : Build OpId := do
  let o ← create .dispatchTable [] [] (.ofList [("sym_name", .str name)]) 1 []
  let _ ← edit (Module.newBlock (← regionOf o 0) [])
  return o

def dtEntry (method procedure : String) : Build OpId := createPlain .dtEntry []
    [("method", .str method), ("proc", .symbol procedure)] []

end Build

end FortranIR
