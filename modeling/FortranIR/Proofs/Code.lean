import FortranIR.Proofs.Edit
import FortranIR.Proofs.Forest

/-
  This file defines the code of an operation: what it says apart
  from the handles of its entities.

  In code, values have names of any kind, and a successor is the
  place of a block in the region around the operation. A module
  shows some code if its entities are what the nodes of the code
  say.

  Main declarations:
    * `OpNode`
    * `Placed.Shows`
-/

namespace FortranIR

----
-- Code
----

/-
  An operation without its regions. Its results may have no
  name; these come last.
-/
structure OpNode (α : Type) where
  kind : OpKind
  results : List (α × Ty)
  unnamed : List Ty
  operands : List (α × Ty)
  attrs : AttrMap
  successors : List Nat

/- Operations, regions or blocks with named values. -/
abbrev Code (α : Type) (l : Layer) := Forest (OpNode α) (List (α × Ty)) Unit l

namespace Code

variable {α β : Type}

/- The values that are used, with the types that uses state. -/
def uses (c : Code α l) : List (α × Ty) := c.gather OpNode.operands (fun _ => []) (fun _ => [])

end Code

/- Code whose nodes have handles in a module. -/
abbrev Placed (α : Type) (l : Layer) :=
  Forest (OpId × OpNode α) (BlockId × List (α × Ty)) RegionId l

----
-- Code in a module
----

/-
  Some values have some types, and are defined one after another
  at the same place.
-/
def Module.DefinesAll (m : Module) (defined : Nat → ValueDef) (vs : List ValueId)
    (types : List Ty) : Prop :=
  vs.length = types.length ∧ ∀ (i : Nat) (v : ValueId) (t : Ty), vs[i]? = some v →
      types[i]? = some t →
      ∃ users, m.values[v.index]? = some { type := t, defined := defined i, users := users }

/-
  An operation is what a node says about kind, attributes,
  operands and successors.
-/
structure OpNode.Uses {α : Type} (n : OpNode α) (m : Module) (env : α → Option ValueId)
    (succ : BlockId → Nat → Prop) (op : Operation) : Prop where
  kind : op.kind = n.kind
  attrs : op.attrs = n.attrs
  operands : op.operands.map some = n.operands.map fun x => env x.1
  types : ∀ x ∈ n.operands, ∀ v, env x.1 = some v → m.typeOf v = .ok x.2
  successors : List.Forall₂ succ op.successors n.successors

/- An operation has the results that a node says. -/
structure OpNode.Defines {α : Type} (n : OpNode α) (m : Module) (env : α → Option ValueId)
    (o : OpId) (op : Operation) : Prop where
  results : (op.results.take n.results.length).map some = n.results.map fun x => env x.1
  defined : m.DefinesAll (.result o) op.results (n.results.map Prod.snd ++ n.unnamed)

/- A block has the arguments that its header says. -/
def Module.DefinesArgs {α : Type} (m : Module) (env : α → Option ValueId) (b : BlockId)
    (args : List (α × Ty)) : Prop :=
  ∃ info, m.blocks[b.index]? = some info ∧ info.args.map some = args.map (fun x => env x.1) ∧
    m.DefinesAll (.arg b) info.args (args.map Prod.snd)

/- A block belongs to a region. -/
def Module.IsIn (m : Module) (r : RegionId) (b : BlockId) : Prop := ∃ info,
    m.blocks[b.index]? = some info ∧ info.region = r

namespace Placed

variable {α : Type}

/- The code without the handles. -/
def code (c : Placed α l) : Code α l := c.map Prod.snd Prod.snd fun _ => ()

/- The handles of the operations. -/
def opIds (c : Placed α l) : List OpId := c.gather (fun h => [h.1]) (fun _ => []) (fun _ => [])

/- The handles of the blocks. -/
def blockIds (c : Placed α l) : List BlockId :=
  c.gather (fun _ => []) (fun _ => []) (fun b => [b.1])

/- The handles of the outermost operations. -/
def tops (c : Placed α .ops) : List OpId := c.opRoots.map Prod.fst

/- The handles of the outermost blocks. -/
def heads (c : Placed α .blocks) : List BlockId := c.blockRoots.map Prod.fst

/- A block is at a place of a list of blocks. -/
def IsAt (blocks : List BlockId) (b : BlockId) (i : Nat) : Prop := blocks[i]? = some b

/-
  The module has all operations, regions and blocks as the nodes
  say. The successors of the outermost operations are blocks
  around the code, and are compared by `succ`.
-/
def Shows (m : Module) (env : α → Option ValueId) {l : Layer}
    (succ : BlockId → Nat → Prop) : Placed α l → Prop
  | .nil => True
  | .op (o, n) inner rest =>
    (∃ op, m.ops[o.index]? = some op ∧ n.Uses m env succ op ∧ n.Defines m env o op ∧
      op.regions = inner.regionRoots) ∧ Shows m env succ inner ∧ Shows m env succ rest
  | .region r inner rest =>
    (m.regionBlocks r = .ok (heads inner) ∧ (heads inner).Nodup ∧ ∀ b ∈ heads inner, m.IsIn r b) ∧
    Shows m env (IsAt (heads inner)) inner ∧ Shows m env succ rest
  | .block (b, args) inner rest =>
    m.DefinesArgs env b args ∧ m.blockOps b = .ok (tops inner) ∧ Shows m env succ inner ∧
    Shows m env succ rest

end Placed

end FortranIR
