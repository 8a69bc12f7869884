import FortranIR.Module.Basic

/-
  This file compares operations of two modules up to the names
  of their values and blocks.

  The comparison first pairs everything that the operations
  define: results, blocks and block arguments. Then it checks
  that operands and successors refer to paired entities. A value
  from outside of the compared operations has to be the same
  value on both sides.

  Main declarations:
    * `Pairing`
    * `Module.isomorphic`
-/

namespace FortranIR

----
-- Pairings
----

/- The entities of two modules that correspond to each other. -/
structure Pairing where
  ops : List (OpId × OpId) := []
  values : List (ValueId × ValueId) := []
  blocks : List (BlockId × BlockId) := []
deriving DecidableEq, Repr

abbrev Compare := StateT Pairing (OptionT (Except Fault))

namespace Compare

def read {α : Type} (x : Except Fault α) : Compare α :=
  fun pairing => OptionT.mk (x.map fun a => some (a, pairing))

def agree (cond : Bool) : Compare Unit := fun pairing =>
    OptionT.mk (.ok (if cond then some ((), pairing) else none))

end Compare

----
-- Shapes
----

/- Two operations agree in all that does not refer to others. -/
def sameHead (x y : Operation) : Bool := x.kind == y.kind && x.attrs == y.attrs
    && x.results.length == y.results.length
    && x.regions.length == y.regions.length
    && x.operands.length == y.operands.length
    && x.successors.length == y.successors.length

/- Pair values one by one; the types have to agree. -/
def pairValues (a b : Module) : List ValueId → List ValueId → Compare Unit
  | v :: vs, w :: ws => do
      let s ← Compare.read (a.typeOf v)
      let t ← Compare.read (b.typeOf w)
      Compare.agree (s == t)
      modify fun p => { p with values := (v, w) :: p.values }
      pairValues a b vs ws
  | _, _ => pure ()

def pairAll {α β : Type} (step : α → β → Compare Unit) : List α → List β → Compare Unit
  | x :: xs, y :: ys => do
      step x y
      pairAll step xs ys
  | _, _ => pure ()

/- Pair two blocks, if `step` pairs their operations. -/
def pairBlocks (a b : Module) (step : OpId → OpId → Compare Unit)
    (x y : BlockId) : Compare Unit := do
  let vs := (← Compare.read (a.block x)).args
  let ws := (← Compare.read (b.block y)).args
  Compare.agree (vs.length == ws.length)
  pairValues a b vs ws
  modify fun p => { p with blocks := (x, y) :: p.blocks }
  let xs ← Compare.read (a.blockOps x)
  let ys ← Compare.read (b.blockOps y)
  Compare.agree (xs.length == ys.length)
  pairAll step xs ys

def pairRegions (a b : Module) (step : OpId → OpId → Compare Unit)
    (r s : RegionId) : Compare Unit := do
  let xs ← Compare.read (a.regionBlocks r)
  let ys ← Compare.read (b.regionBlocks s)
  Compare.agree (xs.length == ys.length)
  pairAll (pairBlocks a b step) xs ys

/- Pair two operations and all they define, down to a depth. -/
def sameShape (a b : Module) : Nat → OpId → OpId → Compare Unit
  | 0, _, _ => Compare.read (.error .endless)
  | depth + 1, x, y => do
      let opX ← Compare.read (a.op x)
      let opY ← Compare.read (b.op y)
      Compare.agree (sameHead opX opY)
      pairValues a b opX.results opY.results
      modify fun p => { p with ops := (x, y) :: p.ops }
      pairAll (pairRegions a b (sameShape a b depth)) opX.regions opY.regions

----
-- Uses
----

/- A value is paired with another, or both are one value. -/
def Pairing.relates (p : Pairing) (v w : ValueId) : Bool := match p.values.lookup v with
  | some w' => w' == w
  | none => v == w

def sameOperands (a b : Module) (p : Pairing) : List ValueId → List ValueId → Except Fault Bool
  | v :: vs, w :: ws => do
      let s ← a.typeOf v
      let t ← b.typeOf w
      if s == t && p.relates v w then sameOperands a b p vs ws else return false
  | _, _ => return true

def sameSuccessors (p : Pairing) (xs ys : List BlockId) : Bool :=
  (xs.zip ys).all fun (x, y) => p.blocks.lookup x == some y

def sameUses (a b : Module) (p : Pairing) : List (OpId × OpId) → Except Fault Bool
  | [] => return true
  | (x, y) :: rest => do
      let opX ← a.op x
      let opY ← b.op y
      let operands ← sameOperands a b p opX.operands opY.operands
      if operands && sameSuccessors p opX.successors opY.successors then sameUses a b p rest
      else return false

----
-- Operations and modules
----

def isomorphic (a : Module) (x : OpId) (b : Module) (y : OpId) : Except Fault Bool := do
  match ← ((sameShape a b a.depthLimit x y).run {}).run with
  | none => return false
  | some (_, p) => sameUses a b p p.ops.reverse

def allIsomorphic (a b : Module) : List OpId → List OpId → Except Fault Bool
  | x :: xs, y :: ys => do
      if ← isomorphic a x b y then allIsomorphic a b xs ys else return false
  | _, _ => return true

def Module.isomorphic (a b : Module) : Except Fault Bool := if a.top.length == b.top.length then
    allIsomorphic a b a.top b.top
  else return false

end FortranIR
