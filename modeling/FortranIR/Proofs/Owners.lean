import FortranIR.Proofs.Users
import FortranIR.Proofs.Walk

/-
  This file proves that every module that callers can reach
  keeps track of owners: a region belongs to the operation that
  lists it, a placed block to its region, a placed operation to
  its block, and a result to its operation.

  So an operation stands in one block at most, and once in it.

  Main declarations:
    * `Module.SameOwners`
    * `Module.OwnersKept.place_of_within`
-/

namespace FortranIR

variable {os : List OpId} {b : BlockId} {o outer inner : OpId}
variable {r : RegionId} {region : RegionInfo} {c : Change}

/- The changes that leave everything with its owner. -/
def Change.keepsOwners : Change → Bool
  | .setAttr .. | .setSpan .. | .setOperand ..
  | .replaceAllUses .. | .replaceWithConstant .. => true
  | _ => false

namespace Module

variable {m m' : Module}

----
-- Changes of uses and attributes
----

/- What an operation owns by itself. -/
def owned (op : Operation) : List ValueId × List RegionId := (op.results, op.regions)

/- The region of a block, and what the block owns by itself. -/
def homeAndArgs (info : BlockInfo) : RegionId × List ValueId := (info.region, info.args)

/-
  The modules differ in operands, attributes, spans and users
  only.
-/
structure SameOwners (m m' : Module) : Prop where
  ops : ∀ k : Nat, m'.ops[k]?.map owned = m.ops[k]?.map owned
  values : ∀ k : Nat, m'.values[k]?.map ValueInfo.defined = m.values[k]?.map ValueInfo.defined
  blocks : ∀ k : Nat, m'.blocks[k]?.map homeAndArgs = m.blocks[k]?.map homeAndArgs
  regions : m'.regions = m.regions
  places : m'.places = m.places
  top : m'.top = m.top
  handle : m.handles.region ≤ m'.handles.region

namespace SameOwners

theorem refl (m : Module) : m.SameOwners m :=
  ⟨fun _ => rfl, fun _ => rfl, fun _ => rfl, rfl, rfl, rfl, .refl⟩

theorem block (hSame : m.SameOwners m') (k : Nat) (info : BlockInfo)
    (hInfo : m.blocks[k]? = some info) :
    ∃ new : BlockInfo, m'.blocks[k]? = some new ∧ new.region = info.region := by
  rcases exists_of_map_eq (hSame.blocks k) hInfo with ⟨new, hNew, hHeld⟩
  exact ⟨new, hNew, congrArg Prod.fst hHeld⟩

/- Dropping uses changes lists of users only. -/
theorem of_users {values : Std.TreeMap Nat ValueInfo} {blocks : Std.TreeMap Nat BlockInfo}
    {f : Nat → ValueInfo → List OpId} {g : Nat → BlockInfo → List OpId}
    (hValues : ∀ k : Nat, values[k]? = m.values[k]?.map fun info => { info with users := f k info })
    (hBlocks : ∀ k : Nat, blocks[k]? = m.blocks[k]?.map fun info =>
        { info with users := g k info }) :
    m.SameOwners { m with values := values, blocks := blocks } where
  __ := refl m
  values k := by
    rw [hValues k, Option.map_map]
    rfl
  blocks k := by
    rw [hBlocks k, Option.map_map]
    rfl

theorem modifyOp (hSame : m.SameOwners m') (o : OpId)
    (hOwned : ∀ op, owned (f op) = owned op) :
    m.SameOwners { m' with ops := m'.ops.modify o.index f } where
  __ := hSame
  ops k := by
    rw [← hSame.ops, map_getElem?_modify hOwned]

end SameOwners

theorem SameOwners.change (hKeeps : c.keepsOwners = true)
    (hRun : c.run m = .ok () m') : m.SameOwners m' := by
  cases c with
  | setAttr o name attr | setSpan o span =>
    rcases updateOp_eq_ok_iff.mp hRun with ⟨-, rfl⟩
    exact (refl m).modifyOp o fun _ => rfl
  | setOperand o i v =>
    rcases setOperand_eq_ok hRun with ⟨op, old, values, -, -, -, rfl, hValues⟩
    have hUsers : m.SameOwners { m with values := values } :=
      of_users hValues (g := fun _ info => info.users) (by simp)
    exact hUsers.modifyOp o fun _ => rfl
  | replaceAllUses old new =>
    by_cases hDistinct : old = new
    · rw [Change.run, Module.replaceAllUses, if_pos hDistinct] at hRun
      cases hRun
      exact refl m
    rcases replaceAllUses_eq_ok hDistinct hRun with ⟨info, ops, values, hOld, -, rfl, hRedirects⟩
    refine { refl m with ops := fun k => ?_, values := fun k => ?_ }
    · rw [hRedirects.1 k, Option.map_map]
      split <;> rfl
    · have hSame := congrArg (Option.map Prod.snd) (hRedirects.sources hOld k)
      rwa [Option.map_map, Option.map_map] at hSame
  | replaceWithConstant o value =>
    rcases replaceWithConstant_eq_ok hRun with ⟨op, m₁, -, -, -, hDrop, rfl⟩
    rcases dropUses_eq_ok hDrop with ⟨_, values, blocks, -, rfl, hValues, hBlocks⟩
    exact (of_users hValues hBlocks).modifyOp o fun _ => rfl
  | _ => cases hKeeps

----
-- Owners
----

/-
  A block of a layout with its operations: the block is one of
  the region, and its operations are placed in it.
-/
structure Holds (m : Module) (r : RegionId) (b : BlockId) (os : List OpId) : Prop where
  block : ∃ info, m.blocks[b.index]? = some info ∧ info.region = r
  distinct : os.Nodup
  places : ∀ o ∈ os, m.places[o.index]? = some b

/-
  Regions and the operations that list them agree, the blocks of
  layouts hold their operations, and results are listed by the
  operations that define them.
-/
structure OwnersKept (m : Module) : Prop where
  regions : ∀ (k : Nat) (region : RegionInfo), m.regions[k]? = some region → k < m.handles.region ∧
      ∃ op : Operation, m.ops[region.parent.index]? = some op ∧ ⟨k⟩ ∈ op.regions
  parents : ∀ (k : Nat) (op : Operation), m.ops[k]? = some op → ∀ r ∈ op.regions,
      r.index < m.handles.region ∧
      ∀ region : RegionInfo, m.regions[r.index]? = some region → region.parent = ⟨k⟩
  layouts : ∀ (k : Nat) (region : RegionInfo), m.regions[k]? = some region → region.blocks.Nodup ∧
      ∀ b os, (b, os) ∈ region.layout → m.Holds ⟨k⟩ b os
  results : ∀ (k : Nat) (info : ValueInfo), m.values[k]? = some info →
      ∀ o i, info.defined = .result o i → ∃ op : Operation, m.ops[o.index]? = some op ∧
          op.results[i]? = some ⟨k⟩

theorem mem_updateLayout {c : BlockId} {os : List OpId} :
    (c, os) ∈ updateLayout b f layout ↔ ∃ old, (c, old) ∈ layout ∧
        os = if c = b then f old else old := by
  unfold updateLayout
  rw [List.mem_map]
  constructor
  · rintro ⟨⟨d, old⟩, hMember, hEq⟩
    split at hEq
    · rename_i hSame
      cases hEq
      exact ⟨old, hMember, (if_pos hSame).symm⟩
    · rename_i hOther
      cases hEq
      exact ⟨os, hMember, (if_neg hOther).symm⟩
  · rintro ⟨old, hMember, rfl⟩
    refine ⟨(c, old), hMember, ?_⟩
    split <;> rfl

/- A layout without some operations. -/
def dropOps (gone : List OpId) (layout : List (BlockId × List OpId)) : List (BlockId × List OpId) :=
  layout.map fun e => (e.1, e.2.filter fun o => o ∉ gone)

/- A region without some of its operations. -/
def trimmed (gone : List OpId) (region : RegionInfo) : RegionInfo :=
  { region with layout := dropOps gone region.layout }

theorem blocks_trimmed (gone : List OpId) (region : RegionInfo) :
    (trimmed gone region).blocks = region.blocks := by
  simp [trimmed, dropOps, RegionInfo.blocks, Function.comp_def]

theorem ops?_trimmed (gone : List OpId) (region : RegionInfo) (b : BlockId) :
    (trimmed gone region).ops? b = (region.ops? b).map (List.filter fun o => o ∉ gone) := by
  unfold trimmed dropOps RegionInfo.ops?
  induction region.layout with
  | nil => rfl
  | cons e layout ih =>
    rw [List.map_cons, List.lookup_cons, List.lookup_cons, ih]
    split <;> rfl

theorem trimmed_congr (hSame : ∀ b os, (b, os) ∈ region.layout →
      ∀ o ∈ os, (o ∈ gone ↔ o ∈ gone')) : trimmed gone region = trimmed gone' region := by
  refine congrArg (RegionInfo.mk region.parent) (List.map_congr_left fun e hMember => ?_)
  exact congrArg (Prod.mk e.1) (List.filter_congr fun o hIn => by
    simp only [hSame e.1 e.2 hMember o hIn])

/- A block keeps its operations while these keep their places. -/
theorem Holds.mono (hHolds : m.Holds r b os) (hBlocks :
      ∀ (k : Nat) (info : BlockInfo), m.blocks[k]? = some info →
        ∃ new : BlockInfo, m'.blocks[k]? = some new ∧ new.region = info.region)
    (hPlaces : ∀ o ∈ os, m.places[o.index]? = some b → m'.places[o.index]? = some b) :
    m'.Holds r b os := by
  refine ⟨?_, hHolds.distinct, fun o hMember => hPlaces o hMember (hHolds.places o hMember)⟩
  rcases hHolds.block with ⟨info, hInfo, hRegion⟩
  rcases hBlocks _ info hInfo with ⟨new, hNew, hSame⟩
  exact ⟨new, hNew, hSame.trans hRegion⟩

namespace OwnersKept

----
-- Places are unique
----

section

variable (hKept : m.OwnersKept)
include hKept

/- The operations of a placed block, in the layout of its region. -/
theorem mem_layout {k : Nat} (hRegion : m.regions[k]? = some region)
    (hBlock : b ∈ region.blocks) (hOps : m.blockOps b = .ok os) : (b, os) ∈ region.layout := by
  rcases blockOps_eq_ok_iff.mp hOps with ⟨info, other, hInfo, hOther, hFound⟩
  rcases List.mem_map.mp hBlock with ⟨⟨c, cs⟩, hMember, rfl⟩
  rcases (hKept.layouts k region hRegion).2 c cs hMember with ⟨⟨info', hInfo', hSame⟩, -, -⟩
  cases hInfo.symm.trans hInfo'
  rw [hSame, hRegion, Option.some.injEq] at hOther
  exact hOther ▸ mem_of_lookup hFound

theorem blockOps_eq {k : Nat} (hRegion : m.regions[k]? = some region)
    (hMember : (b, os) ∈ region.layout) : m.blockOps b = .ok os := by
  rcases hKept.layouts k region hRegion with ⟨hDistinct, hHolds⟩
  rcases (hHolds b os hMember).block with ⟨info, hInfo, hHome⟩
  exact blockOps_eq_ok_iff.mpr ⟨info, region, hInfo, hHome ▸ hRegion,
    (lookup_eq_some_iff_mem hDistinct b os).mpr hMember⟩

/- The operations of a block are placed in it. -/
theorem of_blockOps (hOps : m.blockOps b = .ok os) :
    os.Nodup ∧ ∀ o ∈ os, m.places[o.index]? = some b := by
  rcases blockOps_eq_ok_iff.mp hOps with ⟨info, region, -, hRegion, hFound⟩
  have hHolds := (hKept.layouts _ region hRegion).2 b os (mem_of_lookup hFound)
  exact ⟨hHolds.distinct, hHolds.places⟩

/- What is within an operation is placed in a block of it. -/
theorem place_of_within (hWithin : m.Within outer inner) :
    ∃ b os info region, m.places[inner.index]? = some b ∧ m.blocks[b.index]? = some info ∧
      m.regions[info.region.index]? = some region ∧ region.parent = outer ∧
      (b, os) ∈ region.layout ∧ inner ∈ os := by
  rcases hWithin with ⟨op, r, bs, b, os, hOp, hListed, hBlocks, hBlock, hOps, hIn⟩
  rcases regionBlocks_eq_ok_iff.mp hBlocks with ⟨region, hRegion, rfl⟩
  have hMember := hKept.mem_layout hRegion hBlock hOps
  rcases (hKept.layouts _ region hRegion).2 b os hMember with ⟨⟨info, hInfo, hSame⟩, -, hPlaces⟩
  refine ⟨b, os, info, region, hPlaces inner hIn, hInfo, ?_,
    ((hKept.parents _ op hOp r hListed).2 region hRegion), hMember, hIn⟩
  rw [hSame]
  exact hRegion

/- What is within an operation has that operation around it. -/
theorem parentOp_of_within (hWithin : m.Within outer inner) :
    m.parentOp? inner = .ok (some outer) := by
  rcases hKept.place_of_within hWithin with
    ⟨b, os, info, region, hPlace, hInfo, hRegion, hParent, -, -⟩
  exact parentOp?_eq_some_iff.mpr
    ⟨b, hPlace, blockOwner_eq_ok_iff.mpr ⟨info, region, hInfo, hRegion, hParent⟩⟩

end

----
-- Changes
----

theorem of_empty (handles : Handles) : (emptyAfter handles).OwnersKept := by
  constructor <;> simp [emptyAfter]

section

variable (hKept : m.OwnersKept) (hOps : ∀ k : Nat, m'.ops[k]?.map owned = m.ops[k]?.map owned)
variable (hValues :
    ∀ (k : Nat) (info : ValueInfo), m'.values[k]? = some info → ∀ o i, info.defined = .result o i →
        ∃ old, m.values[k]? = some old ∧ old.defined = .result o i)
include hKept hOps hValues

/-
  A change of layouts and values, in which no operation gets or
  loses results and regions.
-/
theorem of_layouts (hRegions : ∀ (k : Nat) (region : RegionInfo), m'.regions[k]? = some region →
          (∃ old : RegionInfo, m.regions[k]? = some old ∧ old.parent = region.parent) ∧
          region.blocks.Nodup ∧ ∀ b os, (b, os) ∈ region.layout → m'.Holds ⟨k⟩ b os)
    (hHandle : m.handles.region ≤ m'.handles.region) : m'.OwnersKept := by
  have hOld : ∀ {k : Nat} {op : Operation}, m'.ops[k]? = some op →
        ∃ old : Operation, m.ops[k]? = some old ∧
          old.results = op.results ∧ old.regions = op.regions := by
    intro k op hOp
    rcases exists_of_map_eq (hOps k).symm hOp with ⟨old, hFound, hOwned⟩
    exact ⟨old, hFound, congrArg Prod.fst hOwned, congrArg Prod.snd hOwned⟩
  have hNew : ∀ {k : Nat} {old : Operation}, m.ops[k]? = some old →
        ∃ op : Operation, m'.ops[k]? = some op ∧
          op.results = old.results ∧ op.regions = old.regions := by
    intro k old hFound
    rcases exists_of_map_eq (hOps k) hFound with ⟨op, hOp, hOwned⟩
    exact ⟨op, hOp, congrArg Prod.fst hOwned, congrArg Prod.snd hOwned⟩
  refine
    { regions := ?_
      parents := ?_
      layouts := fun k region hRegion => (hRegions k region hRegion).2
      results := ?_ }
  · intro k region hRegion
    rcases (hRegions k region hRegion).1 with ⟨old, hOldRegion, hParent⟩
    rcases hKept.regions k old hOldRegion with ⟨hKey, op, hOp, hListed⟩
    rcases hNew hOp with ⟨op', hOp', -, hSame⟩
    exact ⟨Nat.lt_of_lt_of_le hKey hHandle, op', hParent ▸ hOp', hSame ▸ hListed⟩
  · intro k op hOp r hListed
    rcases hOld hOp with ⟨old, hFound, -, hSame⟩
    rcases hKept.parents k old hFound r (hSame ▸ hListed) with ⟨hKey, hParent⟩
    refine ⟨Nat.lt_of_lt_of_le hKey hHandle, ?_⟩
    intro region hRegion
    rcases (hRegions _ region hRegion).1 with ⟨before, hBefore, hEq⟩
    exact hEq ▸ hParent before hBefore
  · intro k info hInfo o i hDefined
    rcases hValues k info hInfo o i hDefined with ⟨old, hFound, hSame⟩
    rcases hKept.results k old hFound o i hSame with ⟨op, hOp, hResult⟩
    rcases hNew hOp with ⟨op', hOp', hResults, -⟩
    exact ⟨op', hOp', hResults ▸ hResult⟩

/- A change that leaves regions and places as they are. -/
theorem of_same (hBlocks : ∀ (k : Nat) (info : BlockInfo), m.blocks[k]? = some info →
        ∃ new : BlockInfo, m'.blocks[k]? = some new ∧ new.region = info.region)
    (hRegions : m'.regions = m.regions) (hPlaces : m'.places = m.places)
    (hHandle : m.handles.region ≤ m'.handles.region) : m'.OwnersKept := by
  refine hKept.of_layouts hOps hValues ?_ hHandle
  intro k region hRegion
  rw [hRegions] at hRegion
  rcases hKept.layouts k region hRegion with ⟨hDistinct, hHolds⟩
  refine ⟨⟨region, hRegion, rfl⟩, hDistinct, ?_⟩
  intro b os hMember
  refine (hHolds b os hMember).mono hBlocks ?_
  intro o _ hPlace
  exact hPlaces ▸ hPlace

end

section

variable (hKept : m.OwnersKept)
include hKept

theorem of_sameOwners (hSame : m.SameOwners m') : m'.OwnersKept := by
  refine hKept.of_same hSame.ops ?_ hSame.block hSame.regions hSame.places hSame.handle
  intro k info hInfo o i hDefined
  rcases exists_of_map_eq (hSame.values k).symm hInfo with ⟨old, hOld, hSource⟩
  exact ⟨old, hOld, hSource.trans hDefined⟩

theorem newOp (hUsers : m.UsersKept)
    (hRun :
      Module.newOp kind operands types attrs count successors m = .ok o m') : m'.OwnersKept := by
  rcases newOp_eq_ok hRun with
    ⟨rfl, -, -, values, blocks, regions, rfl, hValues, hBlocks, hRegions⟩
  -- the new operation has a handle that was not given out
  have hOther : ∀ {k : Nat} {op : Operation}, m.ops[k]? = some op → m.handles.op ≠ k :=
    fun hOp hSame => absurd (hUsers.ops _ _ hOp).1 (Nat.not_lt.mpr (hSame ▸ .refl))
  refine
    { regions := ?_
      parents := ?_
      layouts := ?_
      results := ?_ }
  · intro k region hRegion
    simp only [hRegions k] at hRegion
    split at hRegion
    · rename_i hRange
      cases hRegion
      refine ⟨hRange.2, _, by rw [getElem?_insert_nat, if_pos rfl], ?_⟩
      exact List.mem_map.mpr ⟨k, List.mem_range'_1.mpr hRange, rfl⟩
    · rcases hKept.regions k region hRegion with ⟨hKey, op, hOp, hListed⟩
      refine ⟨Nat.lt_add_right _ hKey, op, ?_, hListed⟩
      rw [getElem?_insert_nat, if_neg (hOther hOp)]
      exact hOp
  · intro k op hOp r hListed
    rw [getElem?_insert_nat] at hOp
    split at hOp
    · rename_i hSame
      cases hOp
      rcases List.mem_map.mp hListed with ⟨i, hRange, rfl⟩
      rw [List.mem_range'_1] at hRange
      refine ⟨hRange.2, ?_⟩
      intro region hRegion
      rw [hRegions, if_pos hRange] at hRegion
      cases hRegion
      rw [hSame]
    · rcases hKept.parents k op hOp r hListed with ⟨hKey, hParent⟩
      refine ⟨Nat.lt_add_right _ hKey, ?_⟩
      intro region hRegion
      rw [hRegions, if_neg (fun hRange => by omega)] at hRegion
      exact hParent region hRegion
  · intro k region hRegion
    simp only [hRegions k] at hRegion
    split at hRegion
    · cases hRegion
      exact ⟨List.nodup_nil, by simp⟩
    · rcases hKept.layouts k region hRegion with ⟨hDistinct, hHolds⟩
      refine ⟨hDistinct, fun b os hMember => (hHolds b os hMember).mono ?_ fun _ _ hPlace => hPlace⟩
      intro k info hInfo
      refine ⟨_, by rw [hBlocks, hInfo, Option.map_some], ?_⟩
      split <;> rfl
  · intro k info hInfo u i hDefined
    simp only [hValues k] at hInfo
    split at hInfo
    · rcases Option.map_eq_some_iff.mp hInfo with ⟨t, -, rfl⟩
      cases hDefined
      refine ⟨_, by rw [getElem?_insert_nat, if_pos rfl], ?_⟩
      simp only [valueIds, List.getElem?_map]
      rw [List.getElem?_range' (by omega), Option.map_some]
      congr 2
      omega
    · rcases Option.map_eq_some_iff.mp hInfo with ⟨old, hOld, rfl⟩
      have hBefore : old.defined = .result u i := by
        rw [← hDefined]
        split <;> rfl
      rcases hKept.results k old hOld u i hBefore with ⟨op, hOp, hResult⟩
      refine ⟨op, ?_, hResult⟩
      rw [getElem?_insert_nat, if_neg (hOther hOp)]
      exact hOp

theorem newValue {info : ValueInfo} (hDefined : ∀ o i, info.defined ≠ .result o i)
    (hRun : Module.newValue info m = .ok v m') : m'.OwnersKept := by
  cases hRun
  refine hKept.of_same (fun _ => rfl) ?_
    (fun k info hInfo => ⟨info, hInfo, rfl⟩) rfl rfl .refl
  intro k found hFound o i hResult
  rw [getElem?_insert_nat] at hFound
  split at hFound
  · cases hFound
    exact absurd hResult (hDefined o i)
  · exact ⟨found, hFound, hResult⟩

theorem newDetachedBlock (hUsers : m.UsersKept)
    (hRun : Module.newDetachedBlock r types m = .ok b m') : m'.OwnersKept := by
  rcases newDetachedBlock_run r types m with ⟨values, hRun', hValues⟩
  cases hRun'.symm.trans hRun
  refine hKept.of_same (fun _ => rfl) ?_ ?_ rfl rfl .refl
  · intro k info hInfo o i hResult
    simp only [hValues k] at hInfo
    split at hInfo
    · rcases Option.map_eq_some_iff.mp hInfo with ⟨t, -, rfl⟩
      cases hResult
    · exact ⟨info, hInfo, hResult⟩
  · intro k info hInfo
    have hOther : m.handles.block ≠ k := by
      have hKey := hUsers.blocks k info hInfo
      omega
    refine ⟨info, ?_, rfl⟩
    rw [getElem?_insert_nat, if_neg hOther]
    exact hInfo

theorem addBlockArg (hRun : Module.addBlockArg b t m = .ok v m') : m'.OwnersKept := by
  rcases addBlockArg_eq_ok_iff.mp hRun with ⟨info, -, -, rfl⟩
  refine hKept.of_same (fun _ => rfl) ?_ ?_ rfl rfl .refl
  · intro k found hFound o i hResult
    rw [getElem?_insert_nat] at hFound
    split at hFound
    · cases hFound
      cases hResult
    · exact ⟨found, hFound, hResult⟩
  · exact fun k found => exists_of_map_eq (map_getElem?_modify (fun _ => by rfl) _ _ k)

theorem removePlaceholder (hRun : Module.removePlaceholder v m = .ok () m') : m'.OwnersKept := by
  rcases removePlaceholder_eq_ok_iff.mp hRun with ⟨info, -, -, -, rfl⟩
  refine hKept.of_same (fun _ => rfl) ?_
    (fun k info hInfo => ⟨info, hInfo, rfl⟩) rfl rfl .refl
  intro k found hFound o i hResult
  exact ⟨found, ((Erases.of_erase _ _).some_iff.mp hFound).1, hResult⟩

----
-- Places
----

/-
  A change of the layout of one region and of places. It is
  enough to look at the blocks of that region, and to know that
  operations of other blocks stay where they are.
-/
theorem of_layout {f : RegionInfo → List (BlockId × List OpId)} {places : Std.TreeMap Nat BlockId}
    (hRegion : m.regions[r.index]? = some region) (hDistinct : ((f region).map Prod.fst).Nodup)
    (hHolds : ∀ b os, (b, os) ∈ f region → { m with places := places : Module }.Holds r b os)
    (hOthers : ∀ (o : OpId) (b : BlockId) (info : BlockInfo), m.places[o.index]? = some b →
        m.blocks[b.index]? = some info → info.region ≠ r → places[o.index]? = some b) :
    { m with
      regions := m.regions.modify r.index fun region => { region with layout := f region }
      places := places : Module }.OwnersKept := by
  refine hKept.of_layouts (fun _ => rfl) (fun k info hInfo o i hResult => ⟨info, hInfo, hResult⟩) ?_
    .refl
  intro k found hFound
  rw [getElem?_modify_nat] at hFound
  split at hFound
  · rename_i hSame
    subst hSame
    rw [hRegion, Option.map_some, Option.some.injEq] at hFound
    subst hFound
    refine ⟨⟨region, hRegion, rfl⟩, hDistinct, ?_⟩
    intro b os hMember
    exact (hHolds b os hMember).mono (fun k info hInfo => ⟨info, hInfo, rfl⟩)
      (fun _ _ hPlace => hPlace)
  · rename_i hOther
    rcases hKept.layouts k found hFound with ⟨hNodup, hBefore⟩
    refine ⟨⟨found, hFound, rfl⟩, hNodup, ?_⟩
    intro b os hMember
    have hHere := hBefore b os hMember
    refine hHere.mono (fun k info hInfo => ⟨info, hInfo, rfl⟩) ?_
    intro o _ hPlace
    rcases hHere.block with ⟨info, hInfo, hHome⟩
    refine hOthers o b info hPlace hInfo ?_
    intro hEq
    rw [hHome] at hEq
    exact hOther (by rw [← hEq])

theorem placeBlock (hRun : Module.placeBlock b m = .ok () m') : m'.OwnersKept := by
  rcases placeBlock_eq_ok_iff.mp hRun with ⟨info, region, hInfo, hRegion, hNew, rfl⟩
  rcases hKept.layouts _ region hRegion with ⟨hDistinct, hHolds⟩
  refine hKept.of_layout (f := fun r => r.layout ++ [(b, [])])
    hRegion ?_ ?_ fun _ _ _ hPlace _ _ => hPlace
  · rw [List.map_append, List.nodup_append]
    refine ⟨hDistinct, by simp, ?_⟩
    rintro c hMember d hLast rfl
    simp only [List.map_cons, List.map_nil, List.mem_singleton] at hLast
    exact hNew (hLast ▸ hMember)
  · intro c os hMember
    rcases List.mem_append.mp hMember with hBefore | hLast
    · exact hHolds c os hBefore
    · rw [List.mem_singleton] at hLast
      cases hLast
      exact ⟨⟨info, hInfo, rfl⟩, List.nodup_nil, by simp⟩

theorem appendOp (hRun : Module.appendOp b o m = .ok () m') : m'.OwnersKept := by
  rcases appendOp_eq_ok_iff.mp hRun with ⟨info, region, os, hPlace, hInfo, hRegion, hOps, hNew, rfl⟩
  rcases hKept.layouts _ region hRegion with ⟨hDistinct, hHolds⟩
  have hStay : ∀ (p : OpId) (c : BlockId), m.places[p.index]? = some c →
        (m.places.insert o.index b)[p.index]? = some c := by
    intro p c hBefore
    rw [getElem?_insert_nat, if_neg]
    · exact hBefore
    · intro hSame
      rw [← hSame, hPlace] at hBefore
      cases hBefore
  refine hKept.of_layout (f := fun r => updateLayout b (· ++ [o]) r.layout) hRegion ?_ ?_
    fun p c _ hBefore _ _ => hStay p c hBefore
  · rw [updateLayout_blocks]
    exact hDistinct
  · intro c cs hMember
    rcases mem_updateLayout.mp hMember with ⟨old, hOld, rfl⟩
    have hBefore := hHolds c old hOld
    split
    · rename_i hSame
      subst hSame
      have hFound := (lookup_eq_some_iff_mem hDistinct c old).mpr hOld
      rw [RegionInfo.ops?, hFound, Option.some.injEq] at hOps
      subst hOps
      refine ⟨hBefore.block, ?_, ?_⟩
      · exact List.nodup_append.mpr ⟨hBefore.distinct, by simp, by
            rintro p hIn q hLast rfl
            rw [List.mem_singleton] at hLast
            exact hNew (hLast ▸ hIn)⟩
      · intro p hIn
        rcases List.mem_append.mp hIn with hEarlier | hLast
        · exact hStay p c (hBefore.places p hEarlier)
        · rw [List.mem_singleton] at hLast
          subst hLast
          simp only [getElem?_insert_nat, if_true]
    · exact hBefore.mono (fun k info hInfo => ⟨info, hInfo, rfl⟩) fun p _ hAt => hStay p c hAt

----
-- Removal
----

/- The operation is taken out of every block that lists it. -/
theorem unplace_regions (hRun : Module.unplace o m = .ok () m') (k : Nat) :
    m'.regions[k]? = m.regions[k]?.map (trimmed [o]) := by
  -- a region that does not list the operation stays as it is
  have hUnlisted : (∀ region c cs, m.regions[k]? = some region → (c, cs) ∈ region.layout → o ∉ cs) →
      m.regions[k]? = m.regions[k]?.map (trimmed [o]) := by
    intro hAbsent
    cases hRegion : m.regions[k]? with
    | none => rfl
    | some region =>
      have hNone : region = trimmed [] region := by simp [trimmed, dropOps]
      refine congrArg some (hNone.trans (trimmed_congr fun c cs hMember p hIn => ?_))
      have hOther : p ≠ o := fun hSame => hAbsent region c cs hRegion hMember (hSame ▸ hIn)
      simp [hOther]
  rcases unplace_eq_ok hRun with ⟨b, info, region, os, hPlace, hInfo, hRegion, hOps, rfl⟩ |
    ⟨hPlace, rfl⟩
  · -- any block that lists the operation is the one of its place
    have hOnly : ∀ found c cs, m.regions[k]? = some found → (c, cs) ∈ found.layout → o ∈ cs →
        k = info.region.index ∧ c = b := by
      intro found c cs hFound hMember hIn
      have hHere := (hKept.layouts k found hFound).2 c cs hMember
      cases hPlace.symm.trans (hHere.places o hIn)
      rcases hHere.block with ⟨info', hInfo', hHome⟩
      cases hInfo.symm.trans hInfo'
      exact ⟨by rw [hHome], rfl⟩
    split
    · rw [getElem?_modify_nat]
      split
      · rename_i hSame
        subst hSame
        rw [hRegion, Option.map_some, Option.map_some, Option.some.injEq]
        refine congrArg (RegionInfo.mk region.parent) (List.map_congr_left fun e hMember => ?_)
        have hDistinct := ((hKept.layouts _ region hRegion).2 e.1 e.2 hMember).distinct
        split
        · refine congrArg (Prod.mk e.1) ((hDistinct.erase_eq_filter o).trans ?_)
          exact List.filter_congr fun p _ => by simp [bne, beq_eq_decide]
        · rename_i hElse
          rw [List.filter_eq_self.mpr]
          intro p hIn
          have hOther : p ≠ o := fun hSame =>
            hElse (hOnly region e.1 e.2 hRegion hMember (hSame ▸ hIn)).2
          simpa using hOther
      · rename_i hElse
        exact hUnlisted fun found c cs hFound hMember hIn =>
          hElse (hOnly found c cs hFound hMember hIn).1.symm
    · rename_i hListed
      refine hUnlisted fun found c cs hFound hMember hIn => hListed ?_
      rcases hOnly found c cs hFound hMember hIn with ⟨rfl, rfl⟩
      cases hRegion.symm.trans hFound
      have hAt := (lookup_eq_some_iff_mem (hKept.layouts _ region hRegion).1 c cs).mpr hMember
      rw [RegionInfo.ops?, hAt, Option.some.injEq] at hOps
      exact hOps ▸ hIn
  · refine hUnlisted fun found c cs hFound hMember hIn => ?_
    have hAt := ((hKept.layouts k found hFound).2 c cs hMember).places o hIn
    rw [hPlace] at hAt
    cases hAt

/- A region is lost if and only if its operation is. -/
theorem ownsRegion_iff (hRegion : m.regions[k]? = some region) :
    m.OwnsRegion gone ⟨k⟩ ↔ gone region.parent := by
  constructor
  · rintro ⟨o, op, hGone, hOp, hListed⟩
    rw [(hKept.parents _ op hOp _ hListed).2 region hRegion]
    exact hGone
  · intro hGone
    rcases hKept.regions k region hRegion with ⟨-, op, hOp, hListed⟩
    exact ⟨region.parent, op, hGone, hOp, hListed⟩

/- A block is lost with its region only. -/
theorem ownsRegion_of_ownsBlock
    (hInfo : m.blocks[b.index]? = some info) (hOwns : m.OwnsBlock gone b) :
    m.OwnsRegion gone info.region := by
  rcases hOwns with ⟨r, region, hOwns, hRegion, hIn⟩
  rcases List.mem_map.mp hIn with ⟨⟨c, cs⟩, hMember, rfl⟩
  rcases ((hKept.layouts _ region hRegion).2 c cs hMember).block with ⟨info', hInfo', hHome⟩
  cases hInfo.symm.trans hInfo'
  exact hHome ▸ hOwns

/- What stands in an operation, except one that has been taken out. -/
theorem within_of_unplace (hRun : Module.unplace o m = .ok () m') (hOther : inner ≠ o)
    (hWithin : m.Within outer inner) : m'.Within outer inner := by
  have hUnplaces := unplace_unplaces hRun
  have hRegions := hKept.unplace_regions hRun
  rcases hWithin with ⟨op, r, bs, b, os, hOp, hListed, hList, hBlock, hFound, hIn⟩
  rcases regionBlocks_eq_ok_iff.mp hList with ⟨region, hRegion, rfl⟩
  rcases blockOps_eq_ok_iff.mp hFound with ⟨info, home, hInfo, hHome, hOs⟩
  refine ⟨op, r, region.blocks, b, _, hUnplaces.ops ▸ hOp, hListed, regionBlocks_eq_ok_iff.mpr
    ⟨_, (hRegions _).trans (congrArg _ hRegion), blocks_trimmed _ _⟩, hBlock,
    blockOps_eq_ok_iff.mpr ⟨info, _, hUnplaces.blocks ▸ hInfo, (hRegions _).trans (congrArg _ hHome),
      (ops?_trimmed _ _ _).trans (congrArg _ hOs)⟩, ?_⟩
  simpa using ⟨hIn, hOther⟩

end

end OwnersKept

/-
  An operation is removed from a module, with all that is inside
  it and all that belongs to these operations. What is left stays
  as it is, without the operations that are gone.
-/
structure Cuts (o : OpId) (gone : List OpId) (m m' : Module) : Prop where
  found : ∃ op, m.ops[o.index]? = some op
  inside : ∀ p, p ∈ gone ↔ m.Above o p
  top : m.places[o.index]? ≠ none ∧ m'.top = m.top ∨
      m.places[o.index]? = none ∧ m'.top = m.top.erase o
  handles : m'.handles = m.handles
  ops : Erases (fun k => ⟨k⟩ ∈ gone) m.ops m'.ops
  places : Erases (fun k => ⟨k⟩ ∈ gone) m.places m'.places
  regions : Trims (fun k => m.OwnsRegion (· ∈ gone) ⟨k⟩) (trimmed gone) m.regions m'.regions
  blocks : Trims (fun k => m.OwnsBlock (· ∈ gone) ⟨k⟩)
    (fun info => { info with users := info.users.filter fun u => u ∉ gone }) m.blocks m'.blocks
  values : Trims (fun k => m.OwnsValue (· ∈ gone) ⟨k⟩)
    (fun info => { info with users := info.users.filter fun u => u ∉ gone }) m.values m'.values
  unused : ∀ (p : OpId) (op : Operation), p ∈ gone → m.ops[p.index]? = some op →
      ∀ v ∈ op.results, ∀ (u : OpId) (user : Operation), u ∉ gone →
        m.ops[u.index]? = some user → v ∉ user.operands

namespace Cuts

variable {gone : List OpId} (hCuts : m.Cuts o gone m')
include hCuts

theorem self : o ∈ gone := (hCuts.inside o).mpr .refl

theorem closed (hGone : outer ∈ gone) (hWithin : m.Within outer inner) : inner ∈ gone :=
  (hCuts.inside inner).mpr (((hCuts.inside outer).mp hGone).tail hWithin)

theorem nested (p : OpId) (hGone : p ∈ gone) : p = o ∨ ∃ q ∈ gone, m.Within q p := by
  rcases Relation.ReflTransGen.cases_tail ((hCuts.inside p).mp hGone) with
    hRoot | ⟨q, hAbove, hWithin⟩
  · exact .inl hRoot
  · exact .inr ⟨q, (hCuts.inside q).mpr hAbove, hWithin⟩

/- The regions of an operation that is left are left. -/
theorem region_left (hOwners : m.OwnersKept) {op : Operation} {k : Nat}
    (hOp' : m'.ops[k]? = some op) (hListed : r ∈ op.regions)
    (hRegion : m.regions[r.index]? = some region) :
    m'.regions[r.index]? = some (trimmed gone region) := by
  rcases hCuts.ops.some_iff.mp hOp' with ⟨hOp, hLeft⟩
  refine (hCuts.regions _ _).mpr ⟨region, hRegion, fun hOwns => hLeft ?_, rfl⟩
  have hGone := (hOwners.ownsRegion_iff hRegion).mp hOwns
  rwa [(hOwners.parents k op hOp r hListed).2 region hRegion] at hGone

end Cuts

/- A region that is left lists nothing that is nested in the root. -/
theorem OwnersKept.eq_root_of_listed (hOwners : m.OwnersKept)
    (hInside : ∀ p, gone p → p = o ∨ ∃ q, gone q ∧ m.Within q p)
    (hRegion : m.regions[k]? = some region) (hLeft : ¬ m.OwnsRegion gone ⟨k⟩)
    (hMember : (b, os) ∈ region.layout) (hIn : inner ∈ os) (hGone : gone inner) : inner = o := by
  rcases hInside inner hGone with hRoot | ⟨q, hOuter, hWithin⟩
  · exact hRoot
  · rcases hOwners.place_of_within hWithin with
      ⟨c, cs, info, other, hPlace, hInfo, hOther, rfl, -, -⟩
    have hHere := (hOwners.layouts k region hRegion).2 b os hMember
    cases hPlace.symm.trans (hHere.places inner hIn)
    rcases hHere.block with ⟨found, hFound, hHome⟩
    cases hInfo.symm.trans hFound
    rw [hHome, hRegion, Option.some.injEq] at hOther
    exact absurd ((hOwners.ownsRegion_iff hRegion).mpr (hOther ▸ hOuter)) hLeft

/- What a removal takes away, and what it leaves. -/
theorem removeOp_cuts (hUsers : m.UsersKept) (hOwners : m.OwnersKept) {op : Operation}
    (hRun : removeOp o m = .ok op m') : ∃ gone, m.Cuts o gone m' := by
  rcases removeOp_eq_ok hRun with ⟨m₁, gone, m₂, hUnplace, hWalk, hDrop, hWithout⟩
  rcases dropAllUses_eq_ok hDrop with ⟨values, blocks, hDropped, hValues, hBlocks⟩
  have hUnplaces := unplace_unplaces hUnplace
  have hRegions₁ := hOwners.unplace_regions hUnplace
  have hOps₂ : m₂.ops = m.ops := by rw [hDropped, hUnplaces.ops]
  have hRegions₂ : ∀ k : Nat, m₂.regions[k]? = m.regions[k]?.map (trimmed [o]) := by
    rw [hDropped]
    exact hRegions₁
  -- only operations that use an entity are among its users
  have hValues₂ : ∀ k : Nat, m₂.values[k]? = m.values[k]?.map fun info =>
      { info with users := info.users.filter fun u => u ∉ gone } := by
    intro k
    rw [hDropped, hValues, hUnplaces.values]
    refine Option.map_congr fun info hInfo => ?_
    refine congrArg (ValueInfo.mk _ _) (List.filter_congr fun u hUser => ?_)
    have hUses : m₁.uses u ⟨k⟩ = true := by
      rw [uses, hUnplaces.ops]
      exact (hUsers.valueUsers k info hInfo u).mp hUser
    simp [hUses]
  have hBlocks₂ : ∀ k : Nat, m₂.blocks[k]? = m.blocks[k]?.map fun info =>
      { info with users := info.users.filter fun u => u ∉ gone } := by
    intro k
    rw [hDropped, hBlocks, hUnplaces.blocks]
    refine Option.map_congr fun info hInfo => ?_
    refine congrArg (BlockInfo.mk _ _) (List.filter_congr fun u hUser => ?_)
    have hUses : m₁.branchesTo u ⟨k⟩ = true := by
      rw [branchesTo, hUnplaces.ops]
      exact (hUsers.blockUsers k info hInfo u).mp hUser
    simp [hUses]
  have hInside : ∀ p, p ∈ gone ↔ m.Above o p := by
    intro p
    refine (mem_walkOp_iff hWalk).trans ⟨fun hAbove => ?_, fun hAbove => ?_⟩
    · exact Relation.ReflTransGen.mono (fun _ _ => within_of_unplaced hUnplace) _ _ hAbove
    · induction hAbove with
      | refl => exact .refl
      | @tail q p _ hWithin ih =>
        by_cases hRoot : p = o
        · exact hRoot ▸ .refl
        · exact ih.tail (hOwners.within_of_unplace hUnplace hRoot hWithin)
  -- what belongs to the operations belonged to them before
  have hOwnsRegion : ∀ r, m₂.OwnsRegion (· ∈ gone) r ↔ m.OwnsRegion (· ∈ gone) r := by
    simp only [OwnsRegion, hOps₂, implies_true]
  have hOwnsBlock : ∀ b, m₂.OwnsBlock (· ∈ gone) b ↔ m.OwnsBlock (· ∈ gone) b := by
    simp [OwnsBlock, hOwnsRegion, hRegions₂, blocks_trimmed]
  have hOwnsValue : ∀ v, m₂.OwnsValue (· ∈ gone) v ↔ m.OwnsValue (· ∈ gone) v := by
    simp [OwnsValue, hOwnsBlock, hOps₂, hBlocks₂]
  refine ⟨gone,
    { found := ?_
      inside := hInside
      top := by rw [hWithout.top, hDropped]; exact hUnplaces.top
      handles := by rw [hWithout.handles, hDropped, hUnplaces.handles]
      ops := hOps₂ ▸ hWithout.ops
      places := ?_
      regions := hWithout.regions.trims hRegions₂ (fun k => hOwnsRegion ⟨k⟩) ?_
      blocks := hWithout.blocks.trims hBlocks₂ (fun k => hOwnsBlock ⟨k⟩) fun _ _ _ _ => rfl
      values := hWithout.values.trims hValues₂ (fun k => hOwnsValue ⟨k⟩) fun _ _ _ _ => rfl
      unused := ?_ }⟩
  · rcases exists_of_mem_walkOp hWalk (mem_of_walkOp hWalk) with ⟨op, hOp⟩
    exact ⟨op, hUnplaces.ops ▸ op_eq_ok_iff.mp hOp⟩
  · refine fun k => ⟨(hWithout.places k).1, fun hLeft => ((hWithout.places k).2 hLeft).trans ?_⟩
    rw [hDropped]
    refine hUnplaces.places ⟨k⟩ ?_
    rintro rfl
    exact hLeft (mem_of_walkOp hWalk)
  · intro k region hRegion hLeft
    refine trimmed_congr fun b os hMember p hIn => ?_
    rw [List.mem_singleton]
    refine ⟨fun hRoot => hRoot ▸ mem_of_walkOp hWalk, fun hGone => ?_⟩
    refine hOwners.eq_root_of_listed (fun q hQ => ?_) hRegion hLeft hMember hIn hGone
    rcases Relation.ReflTransGen.cases_tail ((hInside q).mp hQ) with hRoot | ⟨r, hAbove, hWithin⟩
    · exact .inl hRoot
    · exact .inr ⟨r, (hInside r).mpr hAbove, hWithin⟩
  · intro p found hGone hFound v hResult u user hLeft hUser hIn
    rcases hWithout.unused p found hGone (hOps₂ ▸ hFound) v hResult with ⟨info₂, hInfo₂, hNone⟩
    rw [hValues₂, Option.map_eq_some_iff] at hInfo₂
    rcases hInfo₂ with ⟨before, hBefore, rfl⟩
    have hUser : u ∈ before.users :=
      (hUsers.valueUsers _ before hBefore u).mpr (uses_iff.mpr ⟨user, hUser, hIn⟩)
    simpa [hLeft] using List.filter_eq_nil_iff.mp hNone u hUser

namespace OwnersKept

variable (hKept : m.OwnersKept)
include hKept

theorem removeOp (hUsers : m.UsersKept) {op : Operation}
    (hRun : Module.removeOp o m = .ok op m') : m'.OwnersKept := by
  rcases removeOp_cuts hUsers hKept hRun with ⟨gone, hCuts⟩
  refine
    { regions := ?_
      parents := ?_
      layouts := ?_
      results := ?_ }
  · intro k region' hRegion'
    rcases (hCuts.regions k region').mp hRegion' with ⟨region, hRegion, hLeft, rfl⟩
    rcases hKept.regions k region hRegion with ⟨hKey, op, hOp, hListed⟩
    have hParent := mt (hKept.ownsRegion_iff hRegion).mpr hLeft
    rw [hCuts.handles]
    exact ⟨hKey, op, hCuts.ops.some_iff.mpr ⟨hOp, hParent⟩, hListed⟩
  · intro k op hOp r hListed
    rcases hKept.parents k op (hCuts.ops.some_iff.mp hOp).1 r hListed with ⟨hKey, hParent⟩
    rw [hCuts.handles]
    refine ⟨hKey, fun region' hRegion' => ?_⟩
    rcases (hCuts.regions _ region').mp hRegion' with ⟨region, hRegion, -, rfl⟩
    exact hParent region hRegion
  · intro k region' hRegion'
    rcases (hCuts.regions k region').mp hRegion' with ⟨region, hRegion, hLeft, rfl⟩
    rcases hKept.layouts k region hRegion with ⟨hDistinct, hHolds⟩
    refine ⟨(blocks_trimmed gone region).symm ▸ hDistinct, fun b os hMember => ?_⟩
    rcases List.mem_map.mp hMember with ⟨⟨c, cs⟩, hEntry, hSame⟩
    cases hSame
    have hHere := hHolds c cs hEntry
    refine ⟨?_, hHere.distinct.filter _, fun p hIn => ?_⟩
    · rcases hHere.block with ⟨info, hInfo, hHome⟩
      refine ⟨_, (hCuts.blocks _ _).mpr ⟨info, hInfo, fun hOwns => ?_, rfl⟩, hHome⟩
      have hLost := hKept.ownsRegion_of_ownsBlock hInfo hOwns
      rw [hHome] at hLost
      exact hLeft hLost
    · rcases List.mem_filter.mp hIn with ⟨hListed, hStays⟩
      exact hCuts.places.some_iff.mpr ⟨hHere.places p hListed, of_decide_eq_true hStays⟩
  · intro k info' hInfo' o i hResult
    rcases (hCuts.values k info').mp hInfo' with ⟨info, hInfo, hLeft, rfl⟩
    rcases hKept.results k info hInfo o i hResult with ⟨op, hOp, hListed⟩
    refine ⟨op, hCuts.ops.some_iff.mpr ⟨hOp, fun hGone => hLeft (.inl ?_)⟩, hListed⟩
    exact ⟨o, op, hGone, hOp, List.mem_of_getElem? hListed⟩

----
-- Runs
----

theorem change (hUsers : m.UsersKept) (hRun : c.run m = .ok () m') :
    m'.OwnersKept := by
  cases c with
  | newOp =>
    rcases discard_eq_ok hRun with ⟨o, hNew⟩
    exact hKept.newOp hUsers hNew
  | newPlaceholder =>
    rcases discard_eq_ok hRun with ⟨v, hNew⟩
    exact hKept.newValue (by simp) hNew
  | newBlock =>
    rcases newBlock_eq_ok hRun with ⟨b, m₁, hDetached, hPlace⟩
    exact (hKept.newDetachedBlock hUsers hDetached).placeBlock hPlace
  | newDetachedBlock =>
    rcases discard_eq_ok hRun with ⟨b, hNew⟩
    exact hKept.newDetachedBlock hUsers hNew
  | placeBlock => exact hKept.placeBlock hRun
  | addBlockArg =>
    rcases discard_eq_ok hRun with ⟨v, hNew⟩
    exact hKept.addBlockArg hNew
  | appendOp => exact hKept.appendOp hRun
  | pushTop o =>
    rcases pushTop_eq_ok_iff.mp hRun with ⟨-, rfl⟩
    exact hKept.of_same (fun _ => rfl) (fun k info hInfo o i hResult => ⟨info, hInfo, hResult⟩)
      (fun k info hInfo => ⟨info, hInfo, rfl⟩) rfl rfl .refl
  | setAttr | setSpan | setOperand | replaceAllUses
  | replaceWithConstant => exact hKept.of_sameOwners (.change rfl hRun)
  | removePlaceholder => exact hKept.removePlaceholder hRun
  | removeOp =>
    rcases discard_eq_ok hRun with ⟨op, hRemove⟩
    exact hKept.removeOp hUsers hRemove

end OwnersKept

theorem Reached.ownersKept (hReached : m.Reached) : m.OwnersKept := by
  induction hReached with
  | empty handles => exact .of_empty handles
  | change c hReached hRun ih => exact ih.change hReached.usersKept hRun
  | elsewhere _ _ _ _ hRegion ih =>
    exact ih.of_sameOwners { SameOwners.refl _ with handle := hRegion }

end Module

end FortranIR
