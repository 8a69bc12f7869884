import FortranIR.Proofs.Definitions
import FortranIR.Proofs.Places
import FortranIR.Proofs.Verification.Parts

/-
  This file states what a reduction of a module is: operations
  are lost with what they own, operands give way to others of
  their types, and arithmetic becomes constant. What is left of
  the module reads as before.

  Main declarations:
    * `Module.Live`
    * `Module.Reduces.terminator?_left`
-/

namespace FortranIR

variable {info : BlockInfo} {o : OpId} {region' : RegionInfo} {b : BlockId} {r : RegionId}
variable {op' : Operation}

----
-- Operations
----

namespace Operation

/- The operation with other operands. -/
def redirect (σ : ValueId → ValueId) (op : Operation) : Operation :=
  { op with operands := op.operands.map σ }

/- The operation as a constant. -/
def settle (value : Attr) (op : Operation) : Operation := { op with
    kind := .constant
    operands := []
    successors := []
    attrs := .ofList [("value", value)] }

end Operation

/- The kinds that a constant may take the place of. -/
def OpKind.isArithmetic (kind : OpKind) : Bool :=
  kind.isFloatBinary || kind.isIntBinary || kind == .cmpF || kind == .cmpI

/- Another operation in place of one with the same results. -/
def Operation.Reduced (σ : ValueId → ValueId) (op op' : Operation) : Prop := op' = op.redirect σ ∨
    op.kind.isArithmetic = true ∧ op.regions = [] ∧ ∃ value, op' = op.settle value

namespace Operation.Reduced

variable {op : Operation}

theorem regions_eq (hReduced : op.Reduced σ op') : op'.regions = op.regions := by
  rcases hReduced with rfl | ⟨-, -, value, rfl⟩ <;> rfl

/- An operation with regions keeps all but its operands. -/
theorem of_region (hReduced : op.Reduced σ op') (hRegion : r ∈ op.regions) :
    op' = op.redirect σ := by
  rcases hReduced with hSame | ⟨-, hNone, -⟩
  · exact hSame
  · rw [hNone] at hRegion
    cases hRegion

/- An operation that is not arithmetic keeps all but its operands. -/
theorem of_kind (hReduced : op.Reduced σ op') (hKind : op.kind.isArithmetic = false) :
    op' = op.redirect σ := by
  rcases hReduced with hSame | ⟨hArithmetic, -⟩
  · exact hSame
  · rw [hKind] at hArithmetic
    cases hArithmetic

end Operation.Reduced

theorem OpKind.isArithmetic_of_isTerminator {kind : OpKind} (hKind : kind.isTerminator = true) :
    kind.isArithmetic = false := by
  revert hKind
  cases kind <;> decide

namespace Module

variable {m m' : Module}

----
-- Operations of a module
----

/- The operation is at the module level, or within one that is. -/
inductive Live (m : Module) : OpId → Prop where
  | top {o : OpId} (hTop : o ∈ m.top) : Live m o
  | within {p o : OpId} (hLive : Live m p) (hWithin : m.Within p o) : Live m o

/- A walk over a module reaches its operations. -/
theorem mem_walk_iff_live (hWalk : m.walk = .ok walked) : o ∈ walked ↔ m.Live o := by
  rw [mem_walk_iff hWalk]
  constructor
  · rintro ⟨t, hTop, hAbove⟩
    induction hAbove with
    | refl => exact .top hTop
    | tail _ hWithin ih => exact ih.within hWithin
  · intro hLive
    induction hLive with
    | top hTop => exact ⟨_, hTop, .refl⟩
    | within _ hWithin ih =>
      rcases ih with ⟨t, hTop, hAbove⟩
      exact ⟨t, hTop, hAbove.tail hWithin⟩

/- The operations of the module level exist. -/
def Complete (m : Module) : Prop := ∀ p ∈ m.top, ∃ op, m.op p = .ok op

----
-- Reductions
----

/-
  A module without some of its operations, in which the operands
  of the others are replaced. What an operation that is left
  refers to is left as well.
-/
structure Reduces (σ : ValueId → ValueId) (gone : List OpId) (m m' : Module) : Prop where
  before : m.Reached
  after : m'.Reached
  top : m'.top = m.top
  ops : ∀ (o : OpId) (op' : Operation), m'.ops[o.index]? = some op' →
      ∃ op : Operation, m.ops[o.index]? = some op ∧ op.Reduced σ op'
  opsLeft : ∀ (o : OpId) (op : Operation), m.ops[o.index]? = some op → o ∉ gone →
      ∃ op' : Operation, m'.ops[o.index]? = some op'
  places : ∀ (o : OpId) (op' : Operation), m'.ops[o.index]? = some op' →
      m'.places[o.index]? = m.places[o.index]?
  values : ∀ (k : Nat) (info' : ValueInfo), m'.values[k]? = some info' →
      ∃ info : ValueInfo, m.values[k]? = some info ∧
        info'.type = info.type ∧ info'.defined = info.defined
  blocks : ∀ (k : Nat) (info' : BlockInfo), m'.blocks[k]? = some info' →
      ∃ info : BlockInfo, m.blocks[k]? = some info ∧
        info'.region = info.region ∧ info'.args = info.args
  regions : ∀ (k : Nat) (region' : RegionInfo), m'.regions[k]? = some region' →
      ∃ region : RegionInfo, m.regions[k]? = some region ∧ region' = trimmed gone region
  operandsLeft : ∀ (o : OpId) (op op' : Operation), m.Live o →
      m.ops[o.index]? = some op → m'.ops[o.index]? = some op' →
      ∀ v ∈ op.operands, ∀ info : ValueInfo, m.values[v.index]? = some info →
        info.defined ≠ .placeholder → ∃ info' : ValueInfo, m'.values[(σ v).index]? = some info' ∧
          info'.type = info.type ∧ info'.defined ≠ .placeholder
  regionsLeft : ∀ (o : OpId) (op' : Operation), m'.ops[o.index]? = some op' →
      ∀ r ∈ op'.regions, ∀ region : RegionInfo, m.regions[r.index]? = some region →
        ∃ region' : RegionInfo, m'.regions[r.index]? = some region'
  blocksLeft : ∀ (b : BlockId) (info : BlockInfo), m.blocks[b.index]? = some info →
      ∀ region' : RegionInfo, m'.regions[info.region.index]? = some region' →
        ∃ info' : BlockInfo, m'.blocks[b.index]? = some info'
  lastsLeft : ∀ (k : Nat) (region region' : RegionInfo), m.regions[k]? = some region →
      m'.regions[k]? = some region' →
      ∀ b os, (b, os) ∈ region.layout → ∀ o ∈ os, ∀ op : Operation, m.ops[o.index]? = some op →
          op.kind.isTerminator = true → o ∉ gone

namespace Reduces

variable {gone : List OpId}

theorem typesOf_map_eq (hTypes : ∀ v ∈ vs, m'.typeOf (f v) = m.typeOf v) :
    m'.typesOf (vs.map f) = m.typesOf vs := by
  unfold typesOf
  induction vs with
  | nil => rfl
  | cons v vs ih =>
    rw [List.map_cons, List.mapM_cons, List.mapM_cons, hTypes v (.head _),
      ih fun w hIn => hTypes w (.tail v hIn)]

theorem typesOf_eq (hTypes : ∀ v ∈ vs, m'.typeOf v = m.typeOf v) :
    m'.typesOf vs = m.typesOf vs := by simpa using typesOf_map_eq (f := fun v => v) hTypes

----
-- Regions and blocks
----

section

variable (hReduces : m.Reduces σ gone m')
include hReduces

/- The types of the values that are left are the same. -/
theorem typeOf_eq (hDefined : m'.DefinedAs d v) : m'.typeOf v = m.typeOf v := by
  rcases Option.map_eq_some_iff.mp hDefined with ⟨info', hInfo', -⟩
  rcases hReduces.values _ info' hInfo' with ⟨info, hInfo, hSame, -⟩
  rw [typeOf_eq_ok_iff.mpr ⟨info', hInfo', hSame⟩, typeOf_eq_ok_iff.mpr ⟨info, hInfo, rfl⟩]

theorem results_eq (hOp' : m'.ops[o.index]? = some op') (hResult : v ∈ op'.results) :
    m'.typeOf v = m.typeOf v := by
  rcases List.getElem?_of_mem hResult with ⟨i, hAt⟩
  exact hReduces.typeOf_eq (hReduces.after.definitionsKept.results _ op' hOp' i v hAt)

/- A region that is left has lost operations only. -/
theorem region_left {k : Nat} {region : RegionInfo} (hRegion : m.regions[k]? = some region)
    (hRegion' : m'.regions[k]? = some region') : region' = trimmed gone region := by
  rcases hReduces.regions k region' hRegion' with ⟨found, hFound, hSame⟩
  cases hRegion.symm.trans hFound
  exact hSame

theorem regionBlocks_eq (hOp' : m'.ops[o.index]? = some op') (hListed : r ∈ op'.regions) :
    m'.regionBlocks r = m.regionBlocks r := by
  unfold regionBlocks region
  cases hOld : m.regions[r.index]? with
  | none =>
    cases hNew : m'.regions[r.index]? with
    | none => rfl
    | some region' =>
      rcases hReduces.regions _ region' hNew with ⟨found, hFound, -⟩
      rw [hOld] at hFound
      cases hFound
  | some region =>
    rcases hReduces.regionsLeft o op' hOp' r hListed region hOld with ⟨region', hNew⟩
    rw [hNew, hReduces.region_left hOld hNew]
    exact congrArg Except.ok (blocks_trimmed gone region)

section

variable (hInfo : m.blocks[b.index]? = some info)
variable (hRegion' : m'.regions[info.region.index]? = some region')
include hInfo hRegion'

/- A block of a region that is left. -/
theorem block_left :
    ∃ info' : BlockInfo, m'.blocks[b.index]? = some info' ∧ info'.region = info.region ∧
      info'.args = info.args ∧ ∀ v ∈ info.args, m'.typeOf v = m.typeOf v := by
  rcases hReduces.blocksLeft b info hInfo region' hRegion' with ⟨info', hInfo'⟩
  rcases hReduces.blocks _ info' hInfo' with ⟨found, hFound, hHome, hArgs⟩
  cases hInfo.symm.trans hFound
  refine ⟨info', hInfo', hHome, hArgs, fun v hIn => ?_⟩
  rcases List.getElem?_of_mem (hArgs ▸ hIn) with ⟨i, hAt⟩
  exact hReduces.typeOf_eq (hReduces.after.definitionsKept.args _ info' hInfo' i v hAt)

/- The operations of a block of a region that is left. -/
theorem blockOps_left (hOps : m.blockOps b = .ok os) :
    m'.blockOps b = .ok (os.filter fun o => o ∉ gone) := by
  rcases hReduces.block_left hInfo hRegion' with ⟨info', hInfo', hHome, -⟩
  rcases blockOps_eq_ok_iff.mp hOps with ⟨found, region, hFound, hRegion, hListed⟩
  cases hInfo.symm.trans hFound
  refine blockOps_eq_ok_iff.mpr ⟨info', region', hInfo', hHome ▸ hRegion', ?_⟩
  rw [hReduces.region_left hRegion hRegion', ops?_trimmed, hListed, Option.map_some]

/- A terminator still ends its block. -/
theorem terminator?_left (hLast : m.terminator? b = .ok (some last)) :
    m'.terminator? b = .ok (some last) ∧ ∃ op : Operation, m.ops[last.index]? = some op ∧
        m'.ops[last.index]? = some (op.redirect σ) := by
  rcases terminator?_eq_some.mp hLast with ⟨os, op, hOps, hEnd, hOp, hKind⟩
  rcases blockOps_eq_ok_iff.mp hOps with ⟨found, region, hFound, hRegion, hListed⟩
  cases hInfo.symm.trans hFound
  have hEntry := op_eq_ok_iff.mp hOp
  have hMember : last ∈ os := List.mem_of_getLast? hEnd
  have hStays : last ∉ gone := hReduces.lastsLeft _ region region' hRegion hRegion' b os
      (mem_of_lookup hListed) last hMember op hEntry hKind
  rcases hReduces.opsLeft last op hEntry hStays with ⟨op', hOp'⟩
  rcases hReduces.ops last op' hOp' with ⟨same, hSame, hReduced⟩
  cases hEntry.symm.trans hSame
  have hRedirect := hReduced.of_kind (OpKind.isArithmetic_of_isTerminator hKind)
  subst hRedirect
  refine ⟨terminator?_eq_some.mpr ⟨_, op.redirect σ, hReduces.blockOps_left hInfo hRegion' hOps, ?_,
    op_eq_ok_iff.mpr hOp', hKind⟩, op, hEntry, hOp'⟩
  rcases List.getLast?_eq_some_iff.mp hEnd with ⟨front, rfl⟩
  simp [hStays]

end

----
-- Places
----

section

variable (hOp' : m'.ops[o.index]? = some op')
include hOp'

/- The block and the region of an operation that is left. -/
theorem place_left (hPlace : m.places[o.index]? = some b) :
    ∃ info region, m.blocks[b.index]? = some info ∧ m.regions[info.region.index]? = some region ∧
      m'.regions[info.region.index]? = some (trimmed gone region) := by
  rcases hReduces.after.placesKept o b ((hReduces.places o op' hOp').trans hPlace) with
    ⟨info', region', os, hInfo', hRegion', -⟩
  rcases hReduces.blocks _ info' hInfo' with ⟨info, hInfo, hHome, -⟩
  rcases hReduces.regions _ region' hRegion' with ⟨region, hRegion, rfl⟩
  exact ⟨info, region, hInfo, hHome ▸ hRegion, hHome ▸ hRegion'⟩

theorem parentOp?_eq :
    m'.parentOp? o = m.parentOp? o := by
  unfold parentOp? parentBlock?
  rw [hReduces.places o op' hOp']
  cases hPlace : m.places[o.index]? with
  | none => rfl
  | some b =>
    rcases hReduces.place_left hOp' hPlace with ⟨info, region, hInfo, hRegion, hRegion'⟩
    rcases hReduces.block_left hInfo hRegion' with ⟨info', hInfo', hHome, -⟩
    have hOwner : m.blockOwner b = .ok region.parent :=
      blockOwner_eq_ok_iff.mpr ⟨info, region, hInfo, hRegion, rfl⟩
    have hOwner' : m'.blockOwner b = .ok region.parent :=
      blockOwner_eq_ok_iff.mpr ⟨info', trimmed gone region, hInfo', hHome ▸ hRegion', rfl⟩
    simp only [hOwner, hOwner']

/- The operation around one that is left keeps all but operands. -/
theorem parent_left (hParent : m.parentOp? o = .ok (some p)) :
    ∃ parent : Operation, m.ops[p.index]? = some parent ∧
      m'.ops[p.index]? = some (parent.redirect σ) := by
  rcases parentOp?_eq_some_iff.mp hParent with ⟨b, hPlace, hOwner⟩
  rcases hReduces.place_left hOp' hPlace with ⟨info, region, hInfo, hRegion, hRegion'⟩
  rcases blockOwner_eq_ok_iff.mp hOwner with ⟨found, home, hFound, hHome, rfl⟩
  cases hFound.symm.trans hInfo
  cases hHome.symm.trans hRegion
  rcases hReduces.after.ownersKept.regions _ _ hRegion' with ⟨-, found, hFound, hListed⟩
  rcases hReduces.ops _ found hFound with ⟨parent, hOld, hReduced⟩
  rw [hReduced.regions_eq] at hListed
  rw [hReduced.of_region hListed] at hFound
  exact ⟨parent, hOld, hFound⟩

end

----
-- Nesting
----

theorem within_before (hWithin : m'.Within p o) : m.Within p o := by
  refine hWithin.before ?_ ?_ ?_
  · intro k op' hOp'
    rcases hReduces.ops ⟨k⟩ op' hOp' with ⟨op, hOp, hReduced⟩
    exact ⟨op, hOp, hReduced.regions_eq⟩
  · intro k region' hRegion'
    rcases hReduces.regions k region' hRegion' with ⟨region, hRegion, rfl⟩
    refine ⟨region, hRegion, (blocks_trimmed gone region).symm, fun b os' hOps => ?_⟩
    rw [ops?_trimmed, Option.map_eq_some_iff] at hOps
    rcases hOps with ⟨os, hOs, rfl⟩
    exact ⟨os, hOs, List.filter_subset_self _⟩
  · intro k info' hInfo'
    rcases hReduces.blocks k info' hInfo' with ⟨info, hInfo, hSame, -⟩
    exact ⟨info, hInfo, hSame⟩

/- No operation comes into a module. -/
theorem live_before (hLive : m'.Live o) : m.Live o := by
  induction hLive with
  | top hTop => exact .top (hReduces.top ▸ hTop)
  | within _ hWithin ih => exact ih.within (hReduces.within_before hWithin)

end

end Reduces

end Module

end FortranIR
