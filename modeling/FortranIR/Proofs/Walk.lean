import FortranIR.Proofs.Removal

/-
  This file states which operations a walk over a module
  reaches: those of the module level, and those that stand in a
  region of one that is reached.

  Main declarations:
    * `Module.Within`, `Module.Above`
    * `Module.mem_walk_iff`
-/

namespace FortranIR

variable {inner : OpId → Except Fault (List OpId)}

/- An entry of the first list has a partner in the second. -/
theorem forall₂_mem_left {α β : Type} {related : α → β → Prop} {xs : List α} {ys : List β}
    (hAll : List.Forall₂ related xs ys) {x : α} (hMember : x ∈ xs) : ∃ y ∈ ys, related x y := by
  induction hAll with
  | nil => cases hMember
  | cons hFirst _ ih =>
    rcases List.mem_cons.mp hMember with rfl | hLater
    · exact ⟨_, .head _, hFirst⟩
    · rcases ih hLater with ⟨y, hIn, hRelated⟩
      exact ⟨y, .tail _ hIn, hRelated⟩

/- An entry of the second list has a partner in the first. -/
theorem forall₂_mem_right {α β : Type} {related : α → β → Prop} {xs : List α} {ys : List β}
    (hAll : List.Forall₂ related xs ys) {y : β} (hMember : y ∈ ys) : ∃ x ∈ xs, related x y :=
  forall₂_mem_left hAll.flip hMember

namespace Module

variable {m : Module}

----
-- Nesting
----

/- An operation stands directly in a region of another one. -/
def Within (m : Module) (outer inner : OpId) : Prop := ∃ op r bs b os,
    m.ops[outer.index]? = some op ∧ r ∈ op.regions ∧ m.regionBlocks r = .ok bs ∧ b ∈ bs ∧
    m.blockOps b = .ok os ∧ inner ∈ os

/- The operation is the other one, or it is around it. -/
def Above (m : Module) (outer inner : OpId) : Prop := Relation.ReflTransGen m.Within outer inner

/-
  What is within an operation was within it before, if regions
  and blocks have lost operations only.
-/
theorem Within.before {m' : Module} (hOps : Remains Operation.regions m.ops m'.ops)
    (hRegions : ∀ (k : Nat) (region : RegionInfo), m'.regions[k]? = some region →
        ∃ old : RegionInfo, m.regions[k]? = some old ∧ old.blocks = region.blocks ∧
          ∀ b os, region.ops? b = some os → ∃ before, old.ops? b = some before ∧ os ⊆ before)
    (hBlocks : Remains BlockInfo.region m.blocks m'.blocks)
    {inner : OpId} (hWithin : m'.Within outer inner) : m.Within outer inner := by
  rcases hWithin with ⟨op, r, bs, b, os, hOp, hListed, hList, hBlock, hFound, hIn⟩
  rcases hOps _ op hOp with ⟨op', hOp', hSame⟩
  rcases regionBlocks_eq_ok_iff.mp hList with ⟨region, hRegion, rfl⟩
  rcases hRegions _ region hRegion with ⟨region', hRegion', hAll, -⟩
  rcases blockOps_eq_ok_iff.mp hFound with ⟨info, home, hInfo, hHome, hOs⟩
  rcases hBlocks _ info hInfo with ⟨info', hInfo', hPlace⟩
  rcases hRegions _ home hHome with ⟨home', hHome', -, hBefore⟩
  rcases hBefore b os hOs with ⟨before, hOs', hSubset⟩
  exact ⟨op', r, region'.blocks, b, before, hOp', hSame ▸ hListed,
    regionBlocks_eq_ok_iff.mpr ⟨region', hRegion', rfl⟩, hAll ▸ hBlock,
    blockOps_eq_ok_iff.mpr ⟨info', home', hInfo', hPlace ▸ hHome', hOs'⟩, hSubset hIn⟩

theorem within_of_unplaced {inner : OpId} (hRun : unplace o m = .ok () m')
    (hWithin : m'.Within outer inner) : m.Within outer inner := by
  have hUnplaces := unplace_unplaces hRun
  refine Within.before (hUnplaces.ops ▸ .refl _ _) ?_ (hUnplaces.blocks ▸ .refl _ _) hWithin
  intro k region' hRegion'
  rcases unplace_region hRun hRegion' with ⟨region, hRegion, -, hSame⟩
  exact ⟨region, hRegion, hSame⟩

----
-- Walks
----

/- The walks from some operations, one behind the other. -/
def joinWalks {α : Type} (inner : α → Except Fault (List OpId))
    (xs : List α) : Except Fault (List OpId) := do
  return (← xs.mapM inner).flatten

section Joined

variable {α : Type} {inner : α → Except Fault (List OpId)} {xs : List α}

theorem joinWalks_reaches {x : α} (hWalk : joinWalks inner xs = .ok walked) (hX : x ∈ xs) :
    ∃ list, inner x = .ok list ∧ list ⊆ walked := by
  rcases bind_eq_ok_iff.mp hWalk with ⟨lists, hLists, hDone⟩
  cases hDone
  rcases forall₂_mem_left (mapM_eq_ok_iff.mp hLists) hX with ⟨list, hList, hRun⟩
  exact ⟨list, hRun, fun p hIn => List.mem_flatten.mpr ⟨list, hList, hIn⟩⟩

theorem mem_joinWalks (hWalk : joinWalks inner xs = .ok walked) (hMember : o ∈ walked) :
    ∃ x ∈ xs, ∃ list, inner x = .ok list ∧ o ∈ list := by
  rcases bind_eq_ok_iff.mp hWalk with ⟨lists, hLists, hDone⟩
  cases hDone
  rcases List.mem_flatten.mp hMember with ⟨list, hList, hIn⟩
  rcases forall₂_mem_right (mapM_eq_ok_iff.mp hLists) hList with ⟨x, hX, hRun⟩
  exact ⟨x, hX, list, hRun, hIn⟩

end Joined

/- A walk over a region reaches every operation of it. -/
theorem walkRegion_reaches (hWalk : m.walkRegion inner r = .ok walked)
    (hBlocks : m.regionBlocks r = .ok bs) (hBlock : b ∈ bs)
    (hOps : m.blockOps b = .ok os) (hMember : c ∈ os) :
    ∃ nested, inner c = .ok nested ∧ nested ⊆ walked := by
  rcases bind_eq_ok_iff.mp hWalk with ⟨found, hFound, hWalks⟩
  cases hBlocks.symm.trans hFound
  rcases joinWalks_reaches hWalks hBlock with ⟨list, hRun, hList⟩
  rcases bind_eq_ok_iff.mp hRun with ⟨members, hOps', hWalks'⟩
  cases hOps.symm.trans hOps'
  rcases joinWalks_reaches hWalks' hMember with ⟨nested, hInner, hNested⟩
  exact ⟨nested, hInner, List.Subset.trans hNested hList⟩

/- A walk over a region reaches nothing else. -/
theorem mem_walkRegion (hWalk : m.walkRegion inner r = .ok walked) (hMember : p ∈ walked) :
    ∃ bs b os c nested, m.regionBlocks r = .ok bs ∧ b ∈ bs ∧ m.blockOps b = .ok os ∧ c ∈ os ∧
      inner c = .ok nested ∧ p ∈ nested := by
  rcases bind_eq_ok_iff.mp hWalk with ⟨bs, hBlocks, hWalks⟩
  rcases mem_joinWalks hWalks hMember with ⟨b, hBlock, list, hRun, hIn⟩
  rcases bind_eq_ok_iff.mp hRun with ⟨os, hOps, hWalks'⟩
  rcases mem_joinWalks hWalks' hIn with ⟨c, hC, nested, hInner, hAt⟩
  exact ⟨bs, b, os, c, nested, hBlocks, hBlock, hOps, hC, hInner, hAt⟩

section

variable (hWalk : m.walkOp (depth + 1) o = .ok walked)
include hWalk

/-
  A walk from an operation begins with it, and goes on with the
  walks from the operations directly in it.
-/
theorem walkOp_eq_ok : ∃ op nested,
      m.ops[o.index]? = some op ∧ walked = o :: nested ∧
      joinWalks (m.walkRegion (m.walkOp depth)) op.regions = .ok nested := by
  rcases bind_eq_ok_iff.mp hWalk with ⟨op, hOp, hRest⟩
  rcases bind_eq_ok_iff.mp hRest with ⟨lists, hLists, hDone⟩
  cases hDone
  exact ⟨op, lists.flatten, op_eq_ok_iff.mp hOp, rfl, bind_eq_ok_iff.mpr ⟨lists, hLists, rfl⟩⟩

theorem walkOp_reaches (hWithin : m.Within o c) :
    ∃ nested, m.walkOp depth c = .ok nested ∧ nested ⊆ walked := by
  rcases hWithin with ⟨op, r, bs, b, os, hOp, hRegion, hBlocks, hBlock, hOps, hIn⟩
  rcases walkOp_eq_ok hWalk with ⟨found, inside, hFound, rfl, hWalks⟩
  cases hOp.symm.trans hFound
  rcases joinWalks_reaches hWalks hRegion with ⟨list, hRun, hList⟩
  rcases walkRegion_reaches hRun hBlocks hBlock hOps hIn with ⟨nested, hNested, hSubset⟩
  exact ⟨nested, hNested, fun p hAt => .tail o (hList (hSubset hAt))⟩

theorem mem_walkOp (hMember : p ∈ walked) : p = o ∨
      ∃ c nested, m.Within o c ∧ m.walkOp depth c = .ok nested ∧ p ∈ nested := by
  rcases walkOp_eq_ok hWalk with ⟨op, inside, hOp, rfl, hWalks⟩
  rcases List.mem_cons.mp hMember with rfl | hLater
  · exact .inl rfl
  · rcases mem_joinWalks hWalks hLater with ⟨r, hRegion, list, hRun, hIn⟩
    rcases mem_walkRegion hRun hIn with
      ⟨bs, b, os, c, nested, hBlocks, hBlock, hOps, hC, hInner, hAt⟩
    exact .inr ⟨c, nested, ⟨op, r, bs, b, os, hOp, hRegion, hBlocks, hBlock, hOps, hC⟩, hInner, hAt⟩

end

/- A walk reaches what is within an operation that it reaches. -/
theorem mem_walkOp_of_within (hWalk : m.walkOp depth o = .ok walked) (hMember : q ∈ walked)
    (hWithin : m.Within q p) : p ∈ walked := by
  induction depth generalizing o walked with
  | zero => cases hWalk
  | succ depth ih =>
    rcases mem_walkOp hWalk hMember with rfl | ⟨c, nested, hDirect, hInner, hAt⟩
    · rcases walkOp_reaches hWalk hWithin with ⟨nested, hInner, hSubset⟩
      exact hSubset (mem_of_walkOp hInner)
    · rcases walkOp_reaches hWalk hDirect with ⟨same, hSame, hSubset⟩
      cases hInner.symm.trans hSame
      exact hSubset (ih hInner hAt)

theorem mem_walkOp_iff (hWalk : m.walkOp depth o = .ok walked) : p ∈ walked ↔ m.Above o p := by
  constructor
  · intro hMember
    induction depth generalizing o walked with
    | zero => cases hWalk
    | succ depth ih =>
      rcases mem_walkOp hWalk hMember with rfl | ⟨c, nested, hWithin, hInner, hAt⟩
      · exact .refl
      · exact .head hWithin (ih hInner hAt)
  · intro hAbove
    induction hAbove with
    | refl => exact mem_of_walkOp hWalk
    | tail _ hWithin ih => exact mem_walkOp_of_within hWalk ih hWithin

theorem mem_walk_iff (hWalk : m.walk = .ok walked) : o ∈ walked ↔ ∃ t ∈ m.top, m.Above t o := by
  constructor
  · intro hMember
    rcases mem_joinWalks hWalk hMember with ⟨t, hTop, list, hList, hIn⟩
    exact ⟨t, hTop, (mem_walkOp_iff hList).mp hIn⟩
  · rintro ⟨t, hTop, hAbove⟩
    rcases joinWalks_reaches hWalk hTop with ⟨list, hList, hSubset⟩
    exact hSubset ((mem_walkOp_iff hList).mpr hAbove)

theorem mem_walk_of_within (hWalk : m.walk = .ok walked) (hMember : q ∈ walked)
    (hWithin : m.Within q p) : p ∈ walked := by
  rcases (mem_walk_iff hWalk).mp hMember with ⟨t, hTop, hAbove⟩
  exact (mem_walk_iff hWalk).mpr ⟨t, hTop, hAbove.tail hWithin⟩

/- Every operation that a walk reaches exists. -/
theorem exists_of_mem_walkOp (hWalk : m.walkOp depth o = .ok walked) (hMember : p ∈ walked) :
    ∃ op, m.op p = .ok op := by
  induction depth generalizing o walked with
  | zero => cases hWalk
  | succ depth ih =>
    rcases mem_walkOp hWalk hMember with rfl | ⟨c, nested, -, hInner, hIn⟩
    · rcases bind_eq_ok_iff.mp hWalk with ⟨op, hOp, -⟩
      exact ⟨op, hOp⟩
    · exact ih hInner hIn

theorem exists_of_mem_walk (hWalk : m.walk = .ok walked) (hMember : o ∈ walked) :
    ∃ op, m.op o = .ok op := by
  rcases mem_joinWalks hWalk hMember with ⟨t, -, list, hRun, hIn⟩
  exact exists_of_mem_walkOp hRun hIn

end Module

end FortranIR
