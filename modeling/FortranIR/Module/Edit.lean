import FortranIR.Module.Basic

/-
  This file defines the changes of a module.

  Every change keeps the lists of users in step with operands
  and successors. A change that ends in a fault keeps what it
  did before.

  Main declarations:
    * `Edit`
    * `Module.placeBlock`
-/

namespace FortranIR

/- A change of a module that may end in a fault. -/
abbrev Edit := EStateM Fault Module

def Edit.read {α : Type} (f : Module → Except Fault α) : Edit α := do
  match f (← get) with
  | .ok a => pure a
  | .error fault => throw fault

namespace Module

variable (o : OpId) (b : BlockId)

----
-- Users
----

def addUser (users : List OpId) (o : OpId) : List OpId :=
  if users.contains o then users else o :: users

def dropUser (users : List OpId) (o : OpId) : List OpId := users.filter (· ≠ o)

/- Change a value, which has to exist. -/
def updateUse (v : ValueId) (f : ValueInfo → ValueInfo) : Edit Unit := do
  let m ← get
  if m.values.contains v.index then set { m with values := m.values.modify v.index f }
  else throw .missingUse

def addValueUser (v : ValueId) : Edit Unit :=
  updateUse v fun info => { info with users := addUser info.users o }

def updateBlock (f : BlockInfo → BlockInfo) : Edit Unit := do
  let _ ← Edit.read (·.block b)
  modify fun m => { m with blocks := m.blocks.modify b.index f }

def addBlockUser : Edit Unit := updateBlock b fun info =>
    { info with users := addUser info.users o }

def updateRegion (r : RegionId) (f : RegionInfo → RegionInfo) : Edit Unit := do
  let _ ← Edit.read (·.region r)
  modify fun m => { m with regions := m.regions.modify r.index f }

def updateOp (f : Operation → Operation) : Edit Unit := do
  let _ ← Edit.read (·.op o)
  modify fun m => { m with ops := m.ops.modify o.index f }

----
-- New entities
----

def newValue (info : ValueInfo) : Edit ValueId := do
  let m ← get
  let v : ValueId := ⟨m.handles.value⟩
  set { m with
    values := m.values.insert v.index info
    handles := { m.handles with value := m.handles.value + 1 } }
  return v

/- Add the values of some types, numbered from `i` on. -/
def newValues (defined : Nat → ValueDef) : Nat → List Ty → Edit (List ValueId)
  | _, [] => return []
  | i, t :: ts => do
      let v ← newValue { type := t, defined := defined i }
      let vs ← newValues defined (i + 1) ts
      return v :: vs

def newRegion (parent : OpId) : Edit RegionId := do
  let m ← get
  let r : RegionId := ⟨m.handles.region⟩
  set { m with
    regions := m.regions.insert r.index { parent := parent }
    handles := { m.handles with region := m.handles.region + 1 } }
  return r

def newRegions (parent : OpId) : Nat → Edit (List RegionId)
  | 0 => return []
  | n + 1 => do
      let r ← newRegion parent
      let rs ← newRegions parent n
      return r :: rs

/-
  Add an operation that has no place yet. Its operands and
  successors have to exist; its regions are empty.
-/
def newOp (kind : OpKind) (operands : List ValueId) (resultTypes : List Ty) (attrs : AttrMap)
    (regionCount : Nat) (successors : List BlockId) : Edit OpId := do
  let m ← get
  let o : OpId := ⟨m.handles.op⟩
  set { m with handles := { m.handles with op := m.handles.op + 1 } }
  operands.forM (addValueUser o)
  successors.forM (addBlockUser o)
  let results ← newValues (.result o) 0 resultTypes
  let regions ← newRegions o regionCount
  modify fun m =>
    { m with
      ops := m.ops.insert o.index
        { kind, operands, results, attrs, regions, successors } }
  return o

/- Add a value that stands for one that is not defined yet. -/
def newPlaceholder (type : Ty) : Edit ValueId := newValue { type, defined := .placeholder }

def newDetachedBlock (region : RegionId) (argTypes : List Ty) : Edit BlockId := do
  let m ← get
  let b : BlockId := ⟨m.handles.block⟩
  set { m with
    handles := { m.handles with block := m.handles.block + 1 } }
  let args ← newValues (.arg b) 0 argTypes
  modify fun m => { m with blocks := m.blocks.insert b.index { region, args } }
  return b

def placeBlock : Edit Unit := do
  let info ← Edit.read (·.block b)
  let region ← Edit.read (·.region info.region)
  if region.blocks.contains b then throw .blockAlreadyPlaced
  updateRegion info.region fun r => { r with layout := r.layout ++ [(b, [])] }

def newBlock (region : RegionId) (argTypes : List Ty) : Edit BlockId := do
  let b ← newDetachedBlock region argTypes
  placeBlock b
  return b

def addBlockArg (type : Ty) : Edit ValueId := do
  let info ← Edit.read (·.block b)
  let v ← newValue { type, defined := .arg b info.args.length }
  updateBlock b fun info => { info with args := info.args ++ [v] }
  return v

----
-- Placement
----

def updateLayout (f : List OpId → List OpId) (layout : List (BlockId × List OpId)) :
    List (BlockId × List OpId) :=
  layout.map fun entry =>
    if entry.1 = b then (entry.1, f entry.2) else entry

def appendOp (o : OpId) : Edit Unit := do
  if ((← get).parentBlock? o).isSome then throw .operationAlreadyPlaced
  let info ← Edit.read (·.block b)
  let region ← Edit.read (·.region info.region)
  match region.ops? b with
  | none => throw .missingBlock
  | some ops =>
    if ops.contains o then throw .operationAlreadyInBlock
    updateRegion info.region fun r => { r with layout := updateLayout b (· ++ [o]) r.layout }
    modify fun m => { m with places := m.places.insert o.index b }

def pushTop : Edit Unit := do
  if (← get).top.contains o then throw .operationAlreadyPlaced
  modify fun m => { m with top := m.top ++ [o] }

def unplace : Edit Unit := do
  match (← get).parentBlock? o with
  | some b =>
    let info ← Edit.read (·.block b)
    let region ← Edit.read (·.region info.region)
    match region.ops? b with
    | none => throw .missingBlock
    | some ops =>
      if ops.contains o then
        updateRegion info.region fun r =>
          { r with
            layout := updateLayout b (·.erase o) r.layout }
        modify fun m => { m with places := m.places.erase o.index }
  | none => modify fun m => { m with top := m.top.erase o }

----
-- Changes of operations
----

def setAttr (name : String) (attr : Attr) : Edit Unit :=
  updateOp o fun op => { op with attrs := op.attrs.insert name attr }

def setSpan (span : Span) : Edit Unit :=
  updateOp o fun op => { op with span := some span }

def setOperand (i : Nat) (v : ValueId) : Edit Unit := do
  let op ← Edit.read (·.op o)
  match op.operands[i]? with
  | none => throw .index
  | some old =>
    let operands := op.operands.set i v
    updateOp o fun op => { op with operands }
    if !operands.contains old then
      updateUse old fun info => { info with users := dropUser info.users o }
    addValueUser o v

/- Put another value in the place of one, for one of its users. -/
def redirectUser (old new : ValueId) (o : OpId) : Edit Unit := do
  updateOp o fun op =>
    { op with
      operands := op.operands.map fun v =>
        if v = old then new else v }
  addValueUser o new

def replaceAllUses (old new : ValueId) : Edit Unit := do
  if old = new then return
  match (← get).values[old.index]? with
  | none => throw .missingUse
  | some info =>
    updateUse old fun info => { info with users := [] }
    info.users.forM (redirectUser old new)

def removePlaceholder (v : ValueId) : Edit Unit := do
  let info ← Edit.read (·.value v)
  modify fun m => { m with values := m.values.erase v.index }
  if info.defined ≠ .placeholder then throw .notPlaceholder
  if !info.users.isEmpty then throw .placeholderInUse

def dropUses : Edit Unit := do
  let op ← Edit.read (·.op o)
  modify fun m =>
    { m with
      values := op.operands.foldl
        (fun values v =>
          values.modify v.index fun info =>
            { info with users := dropUser info.users o })
        m.values
      blocks := op.successors.foldl
        (fun blocks b =>
          blocks.modify b.index fun info =>
            { info with users := dropUser info.users o })
        m.blocks }

/- Turn an operation into a constant with the same result. -/
def replaceWithConstant (value : Attr) : Edit Unit := do
  let op ← Edit.read (·.op o)
  if op.results.length ≠ 1 then throw .constantNeedsOneResult
  if !op.regions.isEmpty then throw .constantWithRegions
  dropUses o
  updateOp o fun op =>
    { op with
      kind := .constant
      operands := []
      successors := []
      attrs := .ofList [("value", value)] }

----
-- Removal
----

/- Delete a result, which must not be used. -/
def deleteResult (v : ValueId) : Edit Unit := do
  match (← get).values[v.index]? with
  | none => throw .resultGone
  | some info =>
    modify fun m => { m with values := m.values.erase v.index }
    if !info.users.isEmpty then throw .resultInUse

def deleteBlock : Edit Unit := do
  match (← get).blocks[b.index]? with
  | none => throw .blockGone
  | some info =>
    modify fun m =>
      { m with
        blocks := m.blocks.erase b.index
        values := info.args.foldl
          (fun values v => values.erase v.index) m.values }

def deleteRegion (r : RegionId) : Edit Unit := do
  match (← get).regions[r.index]? with
  | none => throw .regionGone
  | some info =>
    modify fun m => { m with regions := m.regions.erase r.index }
    info.blocks.forM deleteBlock

/- Delete an operation whose uses have been dropped. -/
def deleteOp : Edit Operation := do
  let op ← Edit.read (·.op o)
  modify fun m =>
    { m with
      ops := m.ops.erase o.index
      places := m.places.erase o.index }
  op.results.forM deleteResult
  op.regions.forM deleteRegion
  return op

/-
  Remove an operation and everything nested in it. All uses are
  dropped before anything is deleted, and the innermost
  operations are deleted first.
-/
def removeOp : Edit Operation := do
  unplace o
  let nested ← Edit.read fun m => m.walkOp m.depthLimit o
  nested.forM dropUses
  (nested.reverse.filter (· ≠ o)).forM fun inner => do
    let _ ← deleteOp inner
  deleteOp o

end Module

end FortranIR
