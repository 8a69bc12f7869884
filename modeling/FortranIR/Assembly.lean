import FortranIR.Diagnostics
import FortranIR.Item
import FortranIR.Module.Edit
import FortranIR.Ty.Printer

/-
  This file assembles modules from items: it resolves the names
  of values and blocks.

  Values are named once in an operation of the module level, and
  can be used before they are defined; a placeholder stands for
  such a value up to its definition. Blocks are named once in a
  region, and only branches in that region can name them.

  Main declarations:
    * `BlockLabel`
    * `Assemble.useValue`, `Assemble.define`
-/

namespace FortranIR

----
-- Drafts
----

structure BlockLabel where
  block : BlockId
  span : Span
  defined : Bool
deriving DecidableEq, Repr

structure BlockLabels where
  region : RegionId
  blocks : List (String × BlockLabel) := []
deriving DecidableEq, Repr

/-
  A module that is being assembled: the values that are defined,
  the placeholders of those that are not, and the blocks of the
  innermost region.
-/
structure Draft where
  module : Module := {}
  values : List (String × ValueId) := []
  forward : List (String × ValueId × Span) := []
  labels : Option BlockLabels := none
  log : Log := {}

abbrev Assemble := EStateM Fault Draft

def sortedByName {α : Type} (entries : List (String × α)) : List (String × α) :=
  entries.mergeSort fun a b => decide (a.1 ≤ b.1)

namespace Assemble

variable (records : RecordTable) (labels : BlockLabels)

def edit {α : Type} (f : Edit α) : Assemble α := fun d =>
    match f d.module with
    | .ok a m => .ok a { d with module := m }
    | .error fault m => .error fault { d with module := m }

def read {α : Type} (f : Module → Except Fault α) : Assemble α := edit (Edit.read f)

def error (span : Span) (message : String) : Assemble Unit := fun d =>
    match Log.report .error (some span) message d.log with
    | .ok () l => .ok () { d with log := l }
    | .error fault l => .error fault { d with log := l }

----
-- Values
----

/- The value that a name stands for so far. -/
def known? (d : Draft) (name : String) : Option ValueId := match d.values.lookup name with
  | some v => some v
  | none => (d.forward.lookup name).map Prod.fst

def useValue (operand : TypedName) : Assemble ValueId := do
  match known? (← get) operand.text with
  | some v =>
    let t ← read (·.typeOf v)
    if t ≠ operand.type then
      error operand.span (s!"'{operand.text}' has type '{t.render records}', "
          ++ s!"but is used as '{operand.type.render records}'")
    return v
  | none =>
    let v ← edit (Module.newPlaceholder operand.type)
    modify fun d =>
      { d with
        forward := (operand.text, v, operand.span) :: d.forward }
    return v

/- Put a value in the place of the placeholder of its name. -/
def resolve (name : Name)
    (placeholder value : ValueId) : Assemble Unit := do
  let used ← read (·.typeOf placeholder)
  let defined ← read (·.typeOf value)
  if used ≠ defined then
    error name.span (s!"'{name.text}' is defined as '{defined.render records}', "
        ++ s!"but was used as '{used.render records}'")
  edit (Module.replaceAllUses placeholder value)
  edit (Module.removePlaceholder placeholder)

def define (name : Name) (value : ValueId) : Assemble Unit := do
  let d ← get
  if (d.values.lookup name.text).isSome then error name.span s!"redefinition of value '{name.text}'"
  else
    match d.forward.lookup name.text with
    | none => pure ()
    | some (placeholder, _) =>
      modify fun d =>
        { d with
          forward := d.forward.filter fun e => e.1 ≠ name.text }
      resolve records name placeholder value
    modify fun d => { d with values := (name.text, value) :: d.values }

def defineAll (names : List Name) (values : List ValueId) : Assemble Unit :=
  (names.zip values).forM fun (n, v) => define records n v

----
-- Blocks
----

def addLabel (name : String) (label : BlockLabel) : Assemble Unit :=
  modify fun d =>
    { d with
      labels := some
        { labels with blocks := (name, label) :: labels.blocks } }

def useBlock (name : Name) : Assemble (Option BlockId) := do
  match (← get).labels with
  | none =>
    error name.span "successors are only allowed inside of regions"
    return none
  | some labels =>
    match labels.blocks.lookup name.text with
    | some label => return some label.block
    | none =>
      let b ← edit (Module.newDetachedBlock labels.region [])
      addLabel labels name.text ⟨b, name.span, false⟩
      return some b

/-
  The block of a header, with its arguments: a new one, or the
  one that a branch has named before. A block can not be defined
  twice.
-/
def blockOfHead (head : BlockHead) : Assemble (Option BlockId) := do
  match labels.blocks.lookup head.name with
  | none =>
    let types := head.args.map TypedName.type
    let b ← edit (Module.newDetachedBlock labels.region types)
    addLabel labels head.name ⟨b, head.span, true⟩
    return some b
  | some label =>
    if label.defined then
      error head.span s!"redefinition of block '{head.name}'"
      return none
    addLabel labels head.name { label with defined := true }
    head.args.forM fun arg => do
      let _ ← edit (Module.addBlockArg label.block arg.type)
    return some label.block

/- Place the block of a header, and bind its arguments. -/
def defineBlock (head : BlockHead) : Assemble (Option BlockId) := do
  match (← get).labels with
  | none => return none
  | some labels =>
    match ← blockOfHead labels head with
    | none => return none
    | some b =>
      edit (Module.placeBlock b)
      let info ← read (·.block b)
      defineAll records (head.args.map fun a => ⟨a.span, a.text⟩) info.args
      return some b

/-
  The blocks of a region that branches name but no header
  defines. The latest entry of a name is the one that counts.
-/
def undefinedLabels : List (String × BlockLabel) :=
  let names := (labels.blocks.map Prod.fst).eraseDups
  let entries := names.filterMap fun n => (labels.blocks.lookup n).map fun l => (n, l)
  sortedByName (entries.filter fun e => !e.2.defined)

/- Run a step for a region, and report its undefined blocks. -/
def inRegion (r : RegionId) (step : Assemble Unit) : Assemble Unit := do
  let outer := (← get).labels
  modify fun d => { d with labels := some { region := r } }
  step
  let inner := (← get).labels
  modify fun d => { d with labels := outer }
  ((inner.map undefinedLabels).getD []).forM fun (name, label) =>
    error label.span s!"use of undefined block '{name}'"

----
-- Operations
----

def useBlocks : List Name → Assemble (List BlockId)
  | [] => return []
  | n :: ns => do
      let b? ← useBlock n
      let bs ← useBlocks ns
      return b?.toList ++ bs

/- Create and place an operation without its regions. -/
def head (place : Option BlockId) (span : Span) (h : OpHead)
    (regionCount : Nat) : Assemble OpId := do
  let operands ← h.operands.mapM (useValue records)
  let successors ← useBlocks h.successors
  let o ← edit (Module.newOp h.kind operands h.resultTypes h.attrs regionCount successors)
  edit (Module.setSpan o span)
  match place with
  | some b => edit (Module.appendOp b o)
  | none => edit (Module.pushTop o)
  return o

mutual

/-
  Assemble an operation in a block or at the module level; the
  text in place of an error adds nothing.
-/
def operation (records : RecordTable) (place : Option BlockId) : Item → Assemble Unit
  | .error _ => pure ()
  | .operation span h rs => do
      let o ← head records place span h rs.length
      let op ← read (·.op o)
      regions records op.regions rs
      let op ← read (·.op o)
      defineAll records h.results op.results

def regions (records : RecordTable) (ids : List RegionId) :
    List (List (BlockText Item)) → Assemble Unit
  | [] => pure ()
  | bs :: rest => do
      match ids with
      | [] => pure ()
      | r :: ids =>
        inRegion r (blocks records bs)
        regions records ids rest

def blocks (records : RecordTable) : List (BlockText Item) → Assemble Unit
  | [] => pure ()
  | ⟨h, is⟩ :: rest => do
      match ← defineBlock records h with
      | none => pure ()
      | some b => items records b is
      blocks records rest

def items (records : RecordTable) (b : BlockId) : List Item → Assemble Unit
  | [] => pure ()
  | i :: rest => do
      operation records (some b) i
      items records b rest

end

/-
  Assemble an item of the module level, and report the values
  that are used in it but not defined.
-/
def top (records : RecordTable) : Item → Assemble Unit
  | .error _ => pure ()
  | .operation span h rs => do
      modify fun d => { d with values := [], forward := [] }
      operation records none (.operation span h rs)
      let undefined := sortedByName (← get).forward
      modify fun d => { d with forward := [] }
      undefined.forM fun (name, _, span) => error span s!"use of undefined value '{name}'"

end Assemble

end FortranIR
