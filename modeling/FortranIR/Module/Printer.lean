import FortranIR.Attr.Printer
import FortranIR.Module.Parts
import FortranIR.Operation.Predicate

/-
  This file defines the text form of modules.

  Every operation stands on a line of its own, with its regions
  behind it. Values are numbered in the order in which they are
  first mentioned, blocks in the order of their region, and both
  numberings start again at every operation of the module level.

  Main declarations:
    * `Names`
    * `Module.print`
-/

namespace FortranIR

----
-- Names
----

/-
  The names given so far: the values in the order of their first
  mention, and the blocks with their numbers.
-/
structure Names where
  values : List ValueId := []
  blocks : List (BlockId × Nat) := []
deriving DecidableEq, Repr

/- Printing: names are given on the way. -/
abbrev Print := StateT Names (Except Fault)

namespace Print

def read {α : Type} (x : Except Fault α) : Print α := fun names => x.map fun a => (a, names)

/- The name of a value, which is new at its first mention. -/
def valueName (v : ValueId) : Print String := do
  let names ← get
  match names.values.idxOf? v with
  | some i => return s!"%{i}"
  | none =>
    set { names with values := names.values ++ [v] }
    return s!"%{names.values.length}"

def valueNames (vs : List ValueId) : Print String := do
  return Ty.commas (← vs.mapM valueName)

def nameBlocks (blocks : List BlockId) : Print Unit := modify fun names =>
    { names with blocks := blocks.zipIdx ++ names.blocks }

/- The name of a block, whose region has to be named. -/
def blockName (b : BlockId) : Print String := do
  match (← get).blocks.lookup b with
  | some i => return s!"^bb{i}"
  | none => throw .unnamedBlock

def indent (depth : Nat) : String := String.ofList (List.replicate (2 * depth) ' ')

end Print

namespace Module

variable (records : RecordTable) (m : Module) (line : Nat → OpId → Print String) (depth : Nat)
variable (op : Operation) (o : OpId)

----
-- Parts of operations
----

def printTypes (vs : List ValueId) : Print String := do
  let types ← Print.read (m.typesOf vs)
  return Ty.commas (types.map fun t => t.render records)

/- Values with their types, like `(%0, %1 : i32, f32)`. -/
def printGroup (vs : List ValueId) : Print String := do
  let names ← Print.valueNames vs
  let types ← printTypes records m vs
  return s!"({names} : {types})"

/- A block with the arguments it is given, like `^bb1(%0 : i32)`. -/
def printBlockRef (b : BlockId)
    (args : List ValueId) : Print String := do
  let name ← Print.blockName b
  if args.isEmpty then return name
  return name ++ (← printGroup records m args)

def printSuccessor (i : Nat) : Print String := do
  let op ← Print.read (m.op o)
  let dest ← Print.read (entry op.successors i)
  let args ← Print.read (m.successorOperands o i)
  printBlockRef records m dest args

/- An attribute with its name; flags have no value. -/
def printAttr (records : RecordTable) : String × Attr → String
  | (name, .unit) => name
  | (name, a) => s!"{name} = {a.render records}"

def printAttrs (attrs : AttrMap) : String := if attrs.entries.isEmpty then
    ""
  else " \x7b" ++ Ty.commas (attrs.entries.map (printAttr records)) ++ "\x7d"

def symbolText : String := op.symName?.getD ""

def printTypeAttr : String := match op.attr? "type" with
  | none => ""
  | some a => s!" : {a.render records}"

----
-- Operations without regions
----

/- The form that fits every operation without regions. -/
def printGeneric : Print String := do
  let operands ← Print.valueNames op.operands
  let inputs ← printTypes records m op.operands
  let outputs ← printTypes records m op.results
  return s!"{op.kind.name}({operands})"
    ++ printAttrs records op.attrs ++ s!" : ({inputs}) -> ({outputs})"

def printConstant : Print String := do
  let value := (op.attr? "value").getD .unit
  let v ← Print.read op.result
  let t ← Print.read (m.typeOf v)
  return s!"{op.kind.name} {value.render records} : {t.render records}"

def predicateName : String :=
  let i := ((op.attr? "predicate").bind Attr.int?).getD (-1)
  let name? :=
    if op.kind = .cmpF then (FloatPredicate.ofIndex? i).map FloatPredicate.name
    else (IntPredicate.ofIndex? i).map IntPredicate.name
  name?.getD "invalid"

def printCmp : Print String := do
  let operands ← Print.valueNames op.operands
  let t ←
    match op.operands with
    | [] => pure Ty.void
    | v :: _ => Print.read (m.typeOf v)
  return s!"{op.kind.name} \"{predicateName op}\", {operands}" ++ s!" : {t.render records}"

def printBr : Print String := do
  return "br " ++ (← printSuccessor records m o 0)

def printCondBr
    (op : Operation) : Print String := do
  let cond ← Print.read (entry op.operands 0)
  let name ← Print.valueName cond
  let first ← printSuccessor records m o 0
  let second ← printSuccessor records m o 1
  return s!"cond_br {name}, {first}, {second}"

def printCase (parts : SelectParts) (i : Nat)
    (tag : Attr) : Print String := do
  let compare ← Print.read (parts.compare.segment i)
  let names ← compare.mapM Print.valueName
  let dest ← Print.read (entry parts.dests i)
  let args ← Print.read (parts.targets.segment i)
  let target ← printBlockRef records m dest args
  return Ty.commas (tag.render records :: names ++ [target])

def printSelect
    (op : Operation) : Print String := do
  let parts ← Print.read (m.selectParts o)
  let name ← Print.valueName parts.selector
  let t ← Print.read (m.typeOf parts.selector)
  let cases ← parts.cases.zipIdx.mapM fun (tag, i) => printCase records m parts i tag
  return s!"{op.kind.name} {name} : {t.render records} [" ++ Ty.commas cases ++ "]"

----
-- Regions
----

def printArgs (args : List ValueId) : Print String := do
  if args.isEmpty then return ""
  let texts ← args.mapM fun v => do
    let name ← Print.valueName v
    let t ← Print.read (m.typeOf v)
    return s!"{name}: {t.render records}"
  return "(" ++ Ty.commas texts ++ ")"

/-
  A block at a depth, if `line` prints the lines of its
  operations.
-/
def printBlock
    (b : BlockId) : Print String := do
  let name ← Print.blockName b
  let info ← Print.read (m.block b)
  let args ← printArgs records m info.args
  let ops ← Print.read (m.blockOps b)
  let lines ← ops.mapM (line (depth + 1))
  return Print.indent depth ++ name ++ args ++ ":\n" ++ String.join lines

/- A region, which ends without a line feed. -/
def printRegion (r : RegionId) : Print String := do
  let blocks ← Print.read (m.regionBlocks r)
  Print.nameBlocks blocks
  let texts ← blocks.mapM (printBlock records m line depth)
  return "\x7b\n" ++ String.join texts ++ Print.indent depth ++ "\x7d"

/- A region behind a text, unless it is empty. -/
def printOptional (before : String) (r : RegionId) : Print String := do
  let blocks ← Print.read (m.regionBlocks r)
  if blocks.isEmpty then return ""
  return before ++ (← printRegion records m line depth r)

def printFunc : Print String := do
  let r ← Print.read (entry op.regions 0)
  let body ← printOptional records m line depth " " r
  return s!"func @{symbolText op}" ++ printTypeAttr records op ++ body

def printGlobal : Print String := do
  let linkage :=
    match (op.attr? "linkage").bind Attr.str? with
    | none => ""
    | some name => s!" {name}"
  let init :=
    match op.attr? "init_val" with
    | none => ""
    | some a => s!" ({a.render records})"
  let flag := if op.attrs.hasFlag "constant" then " constant" else ""
  let r ← Print.read (entry op.regions 0)
  let body ← printOptional records m line depth " " r
  return s!"{op.kind.name}" ++ linkage ++ s!" @{symbolText op}" ++ init ++ flag
    ++ printTypeAttr records op ++ body

def printDispatchTable : Print String := do
  let r ← Print.read (entry op.regions 0)
  let body ← printOptional records m line depth " " r
  return s!"{op.kind.name} @{symbolText op}" ++ body

def printLoop (op : Operation) : Print String := do
  let parts ← Print.read (m.loopParts o)
  let lower ← Print.valueName parts.lower
  let upper ← Print.valueName parts.upper
  let step ← Print.valueName parts.step
  let cond ←
    match parts.iterateIn with
    | none => pure ""
    | some v => do pure (" and " ++ (← Print.valueName v))
  let flag := if op.attrs.hasFlag "unordered" then " unordered" else ""
  let inits ←
    if parts.inits.isEmpty then pure ""
    else do
      pure (" iter_args" ++ (← printGroup records m parts.inits))
  let r ← Print.read (entry op.regions 0)
  let body ← printRegion records m line depth r
  return s!"{op.kind.name} {lower} to {upper} step {step}" ++ cond ++ flag ++ inits ++ " " ++ body

def printIf : Print String := do
  let cond ← Print.read (entry op.operands 0)
  let name ← Print.valueName cond
  let types ←
    if op.results.isEmpty then pure ""
    else do
      pure (" -> (" ++ (← printTypes records m op.results) ++ ")")
  let first ← Print.read (entry op.regions 0)
  let thenText ← printRegion records m line depth first
  let elseText ←
    match op.regions[1]? with
    | none => pure ""
    | some r => printOptional records m line depth " else " r
  return s!"{op.kind.name} {name}" ++ types ++ " " ++ thenText ++ elseText

----
-- Operations and modules
----

/-
  What stands behind the results of an operation, if `line`
  prints the lines of the operations nested in it.
-/
def printBody (op : Operation) : Print String :=
  match op.kind with
  | .func => printFunc records m line depth op
  | .global => printGlobal records m line depth op
  | .dispatchTable => printDispatchTable records m line depth op
  | .constant => printConstant records m op
  | .cmpF | .cmpI => printCmp records m op
  | .br => printBr records m o
  | .condBr => printCondBr records m o op
  | .select | .selectCase | .selectRank | .selectType => printSelect records m o op
  | .doLoop | .iterateWhile => printLoop records m line depth o op
  | .ifOp => printIf records m line depth op
  | _ => printGeneric records m op

/-
  The lines of an operation, for nesting down to `fuel` levels.
-/
def printOp (records : RecordTable) (m : Module) : Nat → Nat → OpId → Print String
  | 0, _, _ => throw .endless
  | fuel + 1, depth, o => do
      let op ← Print.read (m.op o)
      let results ←
        if op.results.isEmpty then pure ""
        else do
          pure ((← Print.valueNames op.results) ++ " = ")
      let body ← printBody records m (printOp records m fuel) depth o op
      return Print.indent depth ++ results ++ body ++ "\n"

def printTop : Except Fault String :=
  (printOp records m m.depthLimit 0 o).run' {}

def print : Except Fault String := do
  return "\n".intercalate (← m.top.mapM (printTop records m))

end Module

end FortranIR
