import FortranIR.Item
import FortranIR.Module.Basic
import Mathlib

/-
  This file defines forests: operations, regions and blocks that
  are nested in each other, with some data at every node.

  Items, the operations of a module and the lines of a printed
  text are all forests, and differ in the data at the nodes. A
  forest is one inductive family, so what holds of everything in
  it is shown by one induction with four cases.

  Main declarations:
    * `Layer`
    * `Forest.gather`
-/

namespace FortranIR

----
-- Forests
----

/- The kinds of nodes of a forest. -/
inductive Layer where
  | ops
  | regions
  | blocks

/-
  Some operations, some regions of an operation, or some blocks
  of a region, in order and with everything nested in them.
-/
inductive Forest (H B R : Type) : Layer → Type where
  | nil {l : Layer} : Forest H B R l
  | op (head : H) (inner : Forest H B R .regions) (rest : Forest H B R .ops) : Forest H B R .ops
  | region (info : R) (inner : Forest H B R .blocks)
      (rest : Forest H B R .regions) : Forest H B R .regions
  | block (head : B) (inner : Forest H B R .ops)
      (rest : Forest H B R .blocks) : Forest H B R .blocks

namespace Forest

variable {H B R H₁ B₁ R₁ α : Type}

/- Change the data at every node. -/
def map (f : H → H₁) (g : B → B₁) (k : R → R₁) {l : Layer} : Forest H B R l → Forest H₁ B₁ R₁ l
  | nil => nil
  | op h inner rest => op (f h) (inner.map f g k) (rest.map f g k)
  | region r inner rest => region (k r) (inner.map f g k) (rest.map f g k)
  | block b inner rest => block (g b) (inner.map f g k) (rest.map f g k)

/-
  Collect what the nodes give. An operation gives something
  before and something after what is nested in it.
-/
def gather (before after : H → List α) (atBlock : B → List α) {l : Layer} : Forest H B R l → List α
  | nil => []
  | op h inner rest =>
    before h ++ (inner.gather before after atBlock ++ (after h ++ rest.gather before after atBlock))
  | region _ inner rest => inner.gather before after atBlock ++ rest.gather before after atBlock
  | block b inner rest =>
    atBlock b ++ (inner.gather before after atBlock ++ rest.gather before after atBlock)

/- The data of all regions. -/
def regionInfos {l : Layer} : Forest H B R l → List R
  | nil => []
  | op _ inner rest => inner.regionInfos ++ rest.regionInfos
  | region r inner rest => r :: (inner.regionInfos ++ rest.regionInfos)
  | block _ inner rest => inner.regionInfos ++ rest.regionInfos

/- The data of the outermost operations. -/
def opRoots : Forest H B R .ops → List H
  | nil => []
  | op h _ rest => h :: rest.opRoots

/- The data of the outermost regions. -/
def regionRoots : Forest H B R .regions → List R
  | nil => []
  | region r _ rest => r :: rest.regionRoots

/- The data of the outermost blocks. -/
def blockRoots : Forest H B R .blocks → List B
  | nil => []
  | block b _ rest => b :: rest.blockRoots

end Forest

end FortranIR
