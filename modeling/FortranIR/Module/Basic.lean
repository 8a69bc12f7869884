import FortranIR.Attr.Basic
import FortranIR.Fault
import FortranIR.Location
import FortranIR.Operation.Kind
import Std.Data.TreeMap

/-
  This file defines modules: the operations, values, blocks and
  regions of a program, and how they refer to each other.

  Entities are known by handles. A handle is never given out
  twice, so the handle of a removed entity stays without one.
  Looking up an entity that does not exist is a fault.

  Main declarations:
    * `OpId`, `ValueId`, `BlockId`, `RegionId`
    * `BlockInfo`
-/

namespace FortranIR

----
-- Handles
----

structure OpId where
  index : Nat
deriving DecidableEq, Repr, Inhabited

structure ValueId where
  index : Nat
deriving DecidableEq, Repr, Inhabited

structure BlockId where
  index : Nat
deriving DecidableEq, Repr, Inhabited

structure RegionId where
  index : Nat
deriving DecidableEq, Repr, Inhabited

structure Handles where
  op : Nat := 0
  value : Nat := 0
  block : Nat := 0
  region : Nat := 0
deriving DecidableEq, Repr

----
-- Entities
----

/-
  An operation. It owns its results and its regions, and refers
  to its operands and, if it is a branch, to its successors.
-/
structure Operation where
  kind : OpKind
  operands : List ValueId := []
  results : List ValueId := []
  attrs : AttrMap := {}
  regions : List RegionId := []
  successors : List BlockId := []
  span : Option Span := none
deriving DecidableEq, Repr, Inhabited

namespace Operation

def attr? (op : Operation) (name : String) : Option Attr := op.attrs.get? name

def symName? (op : Operation) : Option String := (op.attr? "sym_name").bind Attr.str?

def result (op : Operation) : Except Fault ValueId := match op.results with
  | [v] => .ok v
  | _ => .error .resultCount

end Operation

inductive ValueDef where
  | result (op : OpId) (index : Nat)
  | arg (block : BlockId) (index : Nat)
  | placeholder
deriving DecidableEq, Repr

/- A value: its type, its definition and the operations using it. -/
structure ValueInfo where
  type : Ty
  defined : ValueDef
  users : List OpId := []
deriving DecidableEq, Repr

/- A block: its region, arguments, and the branches to it. -/
structure BlockInfo where
  region : RegionId
  args : List ValueId := []
  users : List OpId := []
deriving DecidableEq, Repr

/-
  A region: the operation that owns it, and its placed blocks
  with their operations, in order.
-/
structure RegionInfo where
  parent : OpId
  layout : List (BlockId × List OpId) := []
deriving DecidableEq, Repr

namespace RegionInfo

def blocks (r : RegionInfo) : List BlockId := r.layout.map Prod.fst

def ops? (r : RegionInfo) (b : BlockId) : Option (List OpId) := r.layout.lookup b

def firstBlock? (r : RegionInfo) : Option BlockId := r.blocks.head?

end RegionInfo

----
-- Modules
----

/-
  A module: its entities by handle, the block of every placed
  operation, and the operations of the module level in order.
-/
structure Module where
  ops : Std.TreeMap Nat Operation := {}
  values : Std.TreeMap Nat ValueInfo := {}
  blocks : Std.TreeMap Nat BlockInfo := {}
  regions : Std.TreeMap Nat RegionInfo := {}
  places : Std.TreeMap Nat BlockId := {}
  top : List OpId := []
  handles : Handles := {}

namespace Module

variable (m : Module) (b : BlockId)

/-
  The empty module. Its handles begin where those of another
  module end, so the entities of both can be told apart.
-/
def emptyAfter (handles : Handles) : Module := { handles := handles }

def op (o : OpId) : Except Fault Operation :=
  Fault.missingOperation.orElse m.ops[o.index]?

def containsOp (o : OpId) : Bool := m.ops.contains o.index

def value (v : ValueId) : Except Fault ValueInfo :=
  Fault.missingValue.orElse m.values[v.index]?

def block : Except Fault BlockInfo :=
  Fault.missingBlock.orElse m.blocks[b.index]?

def region (r : RegionId) : Except Fault RegionInfo :=
  Fault.missingRegion.orElse m.regions[r.index]?

def typeOf (v : ValueId) : Except Fault Ty := do
  return (← m.value v).type

def typesOf (vs : List ValueId) : Except Fault (List Ty) := vs.mapM m.typeOf

def definingOp? (v : ValueId) : Except Fault (Option OpId) := do
  match (← m.value v).defined with
  | .result o _ => return some o
  | _ => return none

def parentBlock? (o : OpId) : Option BlockId := m.places[o.index]?

def blockOwner : Except Fault OpId := do
  let info ← m.block b
  return (← m.region info.region).parent

/-
  Where a block is: its operation, the number of its region in
  the operation, and its place in the region, if it is placed.
-/
def blockPlace : Except Fault (OpId × Nat × Option Nat) := do
  let info ← m.block b
  let region ← m.region info.region
  let owner ← m.op region.parent
  return (region.parent, owner.regions.idxOf info.region, region.blocks.idxOf? b)

def parentOp? (o : OpId) : Except Fault (Option OpId) := match m.parentBlock? o with
  | none => return none
  | some b => return some (← m.blockOwner b)

def regionBlocks (r : RegionId) : Except Fault (List BlockId) := do
  return (← m.region r).blocks

def entryBlock? (o : OpId) (i : Nat) : Except Fault (Option BlockId) := do
  match (← m.op o).regions[i]? with
  | none => return none
  | some r => return (← m.region r).firstBlock?

def isPlaced : Except Fault Bool := do
  let info ← m.block b
  return (← m.region info.region).blocks.contains b

def blockOps : Except Fault (List OpId) := do
  let info ← m.block b
  Fault.missingBlock.orElse ((← m.region info.region).ops? b)

/- The last operation of a placed block, if it ends the block. -/
def terminator? : Except Fault (Option OpId) := do
  match (← m.blockOps b).getLast? with
  | none => return none
  | some o =>
    if (← m.op o).kind.isTerminator then return some o else return none

def findSymbol (m : Module) (name : String) : List OpId → Except Fault (Option OpId)
  | [] => return none
  | o :: rest => do
      if (← m.op o).symName? = some name then return some o else m.findSymbol name rest

def lookupSymbol (name : String) : Except Fault (Option OpId) :=
  m.findSymbol name m.top

----
-- Traversal
----

/-
  The operations of a region, each before the operations nested
  in it, if `inner` gives those of an operation.
-/
def walkRegion (inner : OpId → Except Fault (List OpId))
    (r : RegionId) : Except Fault (List OpId) := do
  let blocks ← m.regionBlocks r
  let lists ← blocks.mapM fun b => do
    let ops ← m.blockOps b
    return (← ops.mapM inner).flatten
  return lists.flatten

/-
  An operation and the operations nested in it, down to a depth.
-/
def walkOp (m : Module) : Nat → OpId → Except Fault (List OpId)
  | 0, _ => .error .endless
  | depth + 1, o => do
      let op ← m.op o
      let lists ← op.regions.mapM (m.walkRegion (m.walkOp depth))
      return o :: lists.flatten

/-
  A depth that no chain of nested operations exceeds, unless an
  operation is nested in itself.
-/
def depthLimit : Nat := m.ops.size + 1

/-
  All operations that are reached from the module level, each
  before the operations nested in it.
-/
def walk : Except Fault (List OpId) := do
  return (← m.top.mapM (m.walkOp m.depthLimit)).flatten

end Module

end FortranIR
