import FortranIR.Proofs.Construction
import FortranIR.Proofs.Definitions
import FortranIR.Proofs.Places

/-
  This file proves that constructed modules are trees of
  operations: places and lists of operations agree, no operation
  is nested in itself, and a walk lists every operation once,
  behind the one around it.

  The measure is the handle: a builder places an operation as
  soon as it is created, so the operation around it is older.

  Main declarations:
    * `Module.NestingKept`
    * `Module.Constructed.wellNested`
-/

namespace FortranIR

variable {walked : List OpId} {c inner o : OpId} {r : RegionId}
variable {region : RegionInfo} {op : Operation}

namespace Module

variable {m m' : Module}

----
-- Homes
----

/- Blocks stay in their regions, and regions in their operations. -/
structure SameHomes (m m' : Module) : Prop where
  blocks : ∀ (k : Nat) (info new : BlockInfo), m.blocks[k]? = some info →
      m'.blocks[k]? = some new → new.region = info.region
  parents : ∀ (k : Nat) (region new : RegionInfo), m.regions[k]? = some region →
      m'.regions[k]? = some new → new.parent = region.parent

namespace SameHomes

theorem of_map
    (hBlocks : ∀ k : Nat, m'.blocks[k]?.map BlockInfo.region = m.blocks[k]?.map BlockInfo.region)
    (hRegions : ∀ k : Nat, m'.regions[k]?.map RegionInfo.parent =
        m.regions[k]?.map RegionInfo.parent) : m.SameHomes m' := by
  refine ⟨fun k info new hInfo hNew => ?_, fun k region new hRegion hNew => ?_⟩
  · have hSame := hBlocks k
    rw [hInfo, hNew] at hSame
    exact Option.some.inj hSame
  · have hSame := hRegions k
    rw [hRegion, hNew] at hSame
    exact Option.some.inj hSame

theorem newOp (hReached : m.Reached)
    (hRun : Module.newOp kind operands types attrs count successors m = .ok o m') :
    m.SameHomes m' := by
  rcases newOp_eq_ok hRun with ⟨rfl, -, -, values, blocks, regions, rfl, -, hBlocks, hRegions⟩
  refine ⟨fun k info new hInfo hNew => ?_, fun k region new hRegion hNew => ?_⟩
  · simp only [hBlocks k, hInfo, Option.map_some, Option.some.injEq] at hNew
    subst hNew
    split <;> rfl
  · have hKey := (hReached.ownersKept.regions k region hRegion).1
    simp only [hRegions k] at hNew
    rw [if_neg (by omega), hRegion, Option.some.injEq] at hNew
    rw [hNew]

theorem newDetachedBlock (hReached : m.Reached)
    (hRun : Module.newDetachedBlock r types m = .ok b m') : m.SameHomes m' := by
  rcases newDetachedBlock_run r types m with ⟨values, hRun', -⟩
  cases hRun'.symm.trans hRun
  refine ⟨fun k info new hInfo hNew => ?_, fun k region new hRegion hNew => ?_⟩
  · have hBelow := hReached.usersKept.blocks k info hInfo
    rw [getElem?_insert_nat, if_neg (Nat.ne_of_gt hBelow), hInfo, Option.some.injEq] at hNew
    rw [hNew]
  · rw [Option.some.inj (hRegion.symm.trans hNew)]

end SameHomes

----
-- Order
----

/-
  Operations are younger than the ones around them, what is
  placed or at the module level exists, and regions belong to
  operations only once.
-/
structure NestingKept (m : Module) : Prop where
  reached : m.Reached
  order : ∀ (k : Nat) (b : BlockId) (info : BlockInfo) (region : RegionInfo),
      m.places[k]? = some b → m.blocks[b.index]? = some info →
      m.regions[info.region.index]? = some region → region.parent.index < k
  placed : ∀ (k : Nat) (b : BlockId), m.places[k]? = some b → ∃ op, m.ops[k]? = some op
  top : ∀ o ∈ m.top, (∃ op, m.ops[o.index]? = some op) ∧ m.places[o.index]? = none
  distinct : m.top.Nodup
  regions : ∀ (k : Nat) (op : Operation), m.ops[k]? = some op → op.regions.Nodup ∧
      ∀ r ∈ op.regions, ∃ region, m.regions[r.index]? = some region

/- The last operation so far, without a place and with nothing inside. -/
structure Newest (m : Module) (o : OpId) : Prop where
  next : m.handles.op = o.index + 1
  op : ∃ op, m.ops[o.index]? = some op ∧ ∀ r ∈ op.regions, m.regionBlocks r = .ok []
  unplaced : m.places[o.index]? = none
  outside : o ∉ m.top

/- What is gone was the root or stood in a block. -/
theorem Cuts.eq_root_of_top (hCuts : m.Cuts o gone m') (hKept : m.NestingKept)
    (hTop : p ∈ m.top) (hGone : p ∈ gone) : p = o := by
  rcases hCuts.nested p hGone with hRoot | ⟨q, -, hWithin⟩
  · exact hRoot
  · rcases hKept.reached.ownersKept.place_of_within hWithin with ⟨b, -, -, -, hPlace, -⟩
    rw [(hKept.top p hTop).2] at hPlace
    cases hPlace

namespace NestingKept

theorem of_empty (handles : Handles) : (emptyAfter handles).NestingKept := by
  constructor
  · exact .empty handles
  all_goals simp [emptyAfter]

section

variable (hKept : m.NestingKept)
include hKept

/- A change after which no other operations have places. -/
theorem of_fewer (hReached : m'.Reached) (hPlaces :
      ∀ (k : Nat) (b : BlockId), m'.places[k]? = some b →
        m.places[k]? = some b ∧ ∃ op, m'.ops[k]? = some op)
    (hTop : m'.top.Sublist m.top ∧ ∀ o ∈ m'.top, ∃ op, m'.ops[o.index]? = some op)
    (hHomes : m.SameHomes m')
    (hRegions : ∀ (k : Nat) (op : Operation), m'.ops[k]? = some op → op.regions.Nodup ∧
        ∀ r ∈ op.regions, ∃ region, m'.regions[r.index]? = some region) : m'.NestingKept where
  reached := hReached
  order k b info region hPlace hInfo hRegion := by
    have hBefore := (hPlaces k b hPlace).1
    -- the block and its region were there with the operation
    rcases hKept.reached.placesKept ⟨k⟩ b hBefore with ⟨old, home, -, hOld, hHome, -, -⟩
    rw [hHomes.blocks _ old info hOld hInfo] at hRegion
    rw [hHomes.parents _ home region hHome hRegion]
    exact hKept.order k b old home hBefore hOld hHome
  placed k b hPlace := (hPlaces k b hPlace).2
  top o hMember := by
    refine ⟨hTop.2 o hMember, ?_⟩
    cases hPlace : m'.places[o.index]? with
    | none => rfl
    | some b =>
      have hNone := (hKept.top o (hTop.1.subset hMember)).2
      rw [(hPlaces _ b hPlace).1] at hNone
      cases hNone
  distinct := hKept.distinct.sublist hTop.1
  regions := hRegions

/- A change that leaves places and owners as they are. -/
theorem of_same (hReached : m'.Reached) (hPlaces : m'.places = m.places)
    (hTop : m'.top = m.top)
    (hOps : ∀ k : Nat, m'.ops[k]?.map Operation.regions = m.ops[k]?.map Operation.regions)
    (hHomes : m.SameHomes m') (hRegions : ∀ k : Nat, m'.regions[k]?.map RegionInfo.parent =
        m.regions[k]?.map RegionInfo.parent) : m'.NestingKept := by
  have hStays : ∀ {k : Nat}, (∃ op, m.ops[k]? = some op) → ∃ op, m'.ops[k]? = some op := by
    rintro k ⟨op, hOp⟩
    rcases exists_of_map_eq (hOps k) hOp with ⟨op', hOp', -⟩
    exact ⟨op', hOp'⟩
  refine hKept.of_fewer hReached ?_ ⟨hTop ▸ List.Sublist.refl _, ?_⟩ hHomes ?_
  · intro k b hPlace
    rw [hPlaces] at hPlace
    exact ⟨hPlace, hStays (hKept.placed k b hPlace)⟩
  · intro o hMember
    rw [hTop] at hMember
    exact hStays (hKept.top o hMember).1
  · intro k op hOp
    rcases exists_of_map_eq (hOps k).symm hOp with ⟨old, hOld, hOwned⟩
    rcases hKept.regions k old hOld with ⟨hDistinct, hExist⟩
    rw [hOwned] at hDistinct hExist
    refine ⟨hDistinct, fun r hMember => ?_⟩
    rcases hExist r hMember with ⟨region, hRegion⟩
    rcases exists_of_map_eq (hRegions r.index) hRegion with ⟨new, hNew, -⟩
    exact ⟨new, hNew⟩

theorem of_sameOwners (hReached : m'.Reached) (hSame : m.SameOwners m') :
    m'.NestingKept := by
  have hRegions : ∀ k : Nat, m'.regions[k]?.map RegionInfo.parent =
        m.regions[k]?.map RegionInfo.parent := fun k => by rw [hSame.regions]
  refine hKept.of_same hReached hSame.places hSame.top (fun k => ?_) (.of_map (fun k => ?_) hRegions)
    hRegions
  · have hOwned := congrArg (Option.map Prod.snd) (hSame.ops k)
    rwa [Option.map_map, Option.map_map] at hOwned
  · have hHome := congrArg (Option.map Prod.fst) (hSame.blocks k)
    rwa [Option.map_map, Option.map_map] at hHome

theorem newOp (hRun : Module.newOp kind operands types attrs count successors m = .ok o m') :
    m'.NestingKept := by
  have hOwners := hKept.reached.ownersKept
  have hReached := hKept.reached.change (.newOp kind operands types attrs count successors)
    (bind_of_ok hRun rfl)
  have hHomes := SameHomes.newOp hKept.reached hRun
  rcases newOp_eq_ok hRun with ⟨rfl, -, -, values, blocks, regions, rfl, -, -, hRegions⟩
  have hStays : ∀ {k : Nat}, (∃ op, m.ops[k]? = some op) → ∃ op, (m.ops.insert m.handles.op
          { kind, operands, attrs, successors
            results := valueIds m.handles.value types.length
            regions := regionIds m.handles.region count })[k]? = some op := by
    rintro k ⟨op, hOp⟩
    rw [getElem?_insert_nat]
    split
    · exact ⟨_, rfl⟩
    · exact ⟨op, hOp⟩
  refine hKept.of_fewer hReached ?_ ⟨List.Sublist.refl _, ?_⟩ hHomes ?_
  · exact fun k b hPlace => ⟨hPlace, hStays (hKept.placed k b hPlace)⟩
  · exact fun o hMember => hStays (hKept.top o hMember).1
  · intro k op hOp
    rw [getElem?_insert_nat] at hOp
    split at hOp
    · cases hOp
      refine ⟨nodup_regionIds _ _, fun r hMember => ?_⟩
      exact ⟨_, (hRegions r.index).trans (if_pos (mem_regionIds.mp hMember))⟩
    · rcases hKept.regions k op hOp with ⟨hDistinct, hExist⟩
      refine ⟨hDistinct, fun r hMember => ?_⟩
      rcases hExist r hMember with ⟨region, hRegion⟩
      have hKey := (hOwners.regions _ region hRegion).1
      exact ⟨region, (hRegions r.index).trans ((if_neg (by omega)).trans hRegion)⟩

/- An operation goes to the module level. -/
theorem pushTop (hNewest : m.Newest o)
    (hRun : Module.pushTop o m = .ok () m') : m'.NestingKept := by
  have hReached := hKept.reached.change (.pushTop o) hRun
  rcases pushTop_eq_ok_iff.mp hRun with ⟨hAbsent, rfl⟩
  refine { hKept with reached := hReached, top := ?_, distinct := ?_ }
  · intro p hMember
    rcases List.mem_append.mp hMember with hOld | hLast
    · exact hKept.top p hOld
    · rw [List.mem_singleton] at hLast
      subst hLast
      rcases hNewest.op with ⟨op, hOp, -⟩
      exact ⟨⟨op, hOp⟩, hNewest.unplaced⟩
  · exact List.Nodup.append hKept.distinct (List.nodup_singleton _)
      (List.disjoint_singleton.mpr hAbsent)

/- A new operation is younger than the one that it is placed in. -/
theorem appendOp (hNewest : m.Newest o)
    (hRun : Module.appendOp b o m = .ok () m') : m'.NestingKept := by
  have hReached := hKept.reached.change (.appendOp b o) hRun
  rcases appendOp_eq_ok_iff.mp hRun with ⟨info, region, os, -, hInfo, hRegion, hOps, -, rfl⟩
  rcases hNewest.op with ⟨op, hOp, hEmpty⟩
  have hOlder : region.parent.index < o.index := by
    rcases hKept.reached.ownersKept.regions _ region hRegion with ⟨-, parent, hParent, hListed⟩
    have hBelow := (hKept.reached.usersKept.ops _ parent hParent).1
    rw [hNewest.next] at hBelow
    by_contra hLate
    -- the region has a block, so it is not one of the operation
    rw [show region.parent.index = o.index by omega] at hParent
    cases hOp.symm.trans hParent
    rcases regionBlocks_eq_ok_iff.mp (hEmpty _ hListed) with ⟨found, hFound, hNone⟩
    cases hRegion.symm.trans hFound
    rw [RegionInfo.blocks, List.map_eq_nil_iff] at hNone
    rw [RegionInfo.ops?, hNone] at hOps
    cases hOps
  refine
    { reached := hReached
      order := ?_
      placed := ?_
      top := ?_
      distinct := hKept.distinct
      regions := ?_ }
  · intro k c found home hPlaced hFound hHome
    simp only [getElem?_insert_nat] at hPlaced
    rcases entry_of_modify hHome with ⟨before, hBefore, hSame⟩
    have hParent : home.parent = before.parent := by rcases hSame with rfl | rfl <;> rfl
    rw [hParent]
    split at hPlaced
    · rename_i hSelf
      cases hPlaced
      subst hSelf
      cases hInfo.symm.trans hFound
      cases hRegion.symm.trans hBefore
      exact hOlder
    · exact hKept.order k c found before hPlaced hFound hBefore
  · intro k c hPlaced
    simp only [getElem?_insert_nat] at hPlaced
    split at hPlaced
    · rename_i hSelf
      subst hSelf
      exact ⟨op, hOp⟩
    · exact hKept.placed k c hPlaced
  · intro p hMember
    refine ⟨(hKept.top p hMember).1, ?_⟩
    rw [getElem?_insert_nat, if_neg]
    · exact (hKept.top p hMember).2
    · exact fun hSame => hNewest.outside (OpId.ext hSame ▸ hMember)
  · intro k op hOp
    rcases hKept.regions k op hOp with ⟨hDistinct, hExist⟩
    exact ⟨hDistinct, fun r hMember => exists_modify_iff.mpr (hExist r hMember)⟩

/- Handles that have not been given out are nowhere. -/
theorem unknown (hNew : m.handles.op ≤ o.index) :
    m.places[o.index]? = none ∧ o ∉ m.top := by
  have hNone : ¬ ∃ op, m.ops[o.index]? = some op := by
    rintro ⟨op, hOp⟩
    exact absurd (hKept.reached.usersKept.ops _ op hOp).1 (Nat.not_lt.mpr hNew)
  refine ⟨?_, fun hMember => hNone (hKept.top o hMember).1⟩
  cases hPlace : m.places[o.index]? with
  | none => rfl
  | some b => exact absurd (hKept.placed _ b hPlace) hNone

end

theorem create (kind : OpKind) (operands : List ValueId) (types : List Ty) (attrs : AttrMap)
    (count : Nat) (successors : List BlockId) :
    Build.Keeps NestingKept (Build.create kind operands types attrs count successors) := by
  intro b o b' hRun hKept
  rcases Build.create_eq_ok hRun with ⟨m, hNew, hPlace⟩
  have hNext := hKept.newOp hNew
  have hNewest : m.Newest o := by
    rcases newOp_eq_ok hNew with ⟨rfl, -, -, values, blocks, regions, rfl, -, -, hRegions⟩
    rcases hKept.unknown (o := ⟨b.module.handles.op⟩) .refl with ⟨hNone, hAbsent⟩
    refine ⟨rfl, ⟨_, by rw [getElem?_insert_nat, if_pos rfl], fun r hMember => ?_⟩, hNone, hAbsent⟩
    exact regionBlocks_eq_ok_iff.mpr
      ⟨_, (hRegions r.index).trans (if_pos (mem_regionIds.mp hMember)), rfl⟩
  rcases hPlace with ⟨block, hPlace⟩ | hPlace
  · exact hNext.appendOp hNewest hPlace
  · exact hNext.pushTop hNewest hPlace

section

variable (hKept : m.NestingKept)
include hKept

theorem removeOp (hRun : Module.removeOp o m = .ok op m') : m'.NestingKept := by
  have hOwners := hKept.reached.ownersKept
  have hReached := hKept.reached.change (.removeOp o) (bind_of_ok hRun rfl)
  rcases removeOp_cuts hKept.reached.usersKept hOwners hRun with ⟨gone, hCuts⟩
  have hTop : m'.top.Sublist m.top ∧ o ∉ m'.top := by
    rcases hCuts.top with ⟨hPlaced, hSame⟩ | ⟨-, hSame⟩
    · rw [hSame]
      exact ⟨List.Sublist.refl _, fun hMember => hPlaced (hKept.top o hMember).2⟩
    · rw [hSame]
      exact ⟨List.erase_sublist, hKept.distinct.not_mem_erase⟩
  refine hKept.of_fewer hReached ?_ ⟨hTop.1, fun p hMember => ?_⟩
    ⟨fun k info new hInfo hNew => ?_, fun k region new hRegion hNew => ?_⟩ ?_
  · intro k b hPlace'
    rcases hCuts.places.some_iff.mp hPlace' with ⟨hPlace, hLeft⟩
    rcases hKept.placed k b hPlace with ⟨op, hOp⟩
    exact ⟨hPlace, op, hCuts.ops.some_iff.mpr ⟨hOp, hLeft⟩⟩
  · rcases (hKept.top p (hTop.1.subset hMember)).1 with ⟨op, hOp⟩
    refine ⟨op, hCuts.ops.some_iff.mpr ⟨hOp, fun hGone => ?_⟩⟩
    exact hTop.2 (hCuts.eq_root_of_top hKept (hTop.1.subset hMember) hGone ▸ hMember)
  · rcases (hCuts.blocks k new).mp hNew with ⟨old, hOld, -, rfl⟩
    cases hInfo.symm.trans hOld
    rfl
  · rcases (hCuts.regions k new).mp hNew with ⟨old, hOld, -, rfl⟩
    cases hRegion.symm.trans hOld
    rfl
  · intro k op hOp
    rcases hKept.regions k op (hCuts.ops.some_iff.mp hOp).1 with ⟨hDistinct, hExist⟩
    refine ⟨hDistinct, fun r hMember => ?_⟩
    rcases hExist r hMember with ⟨region, hRegion⟩
    exact ⟨_, hCuts.region_left hOwners hOp hMember hRegion⟩

theorem newDetachedBlock (hRun : Module.newDetachedBlock r types m = .ok b m') :
    m'.NestingKept := by
  have hReached := hKept.reached.change (.newDetachedBlock r types) (bind_of_ok hRun rfl)
  have hHomes := SameHomes.newDetachedBlock hKept.reached hRun
  rcases newDetachedBlock_run r types m with ⟨values, hRun', -⟩
  cases hRun'.symm.trans hRun
  exact hKept.of_same hReached rfl rfl (fun _ => rfl) hHomes fun _ => rfl

theorem placeBlock (hRun : Module.placeBlock b m = .ok () m') : m'.NestingKept := by
  have hReached := hKept.reached.change (.placeBlock b) hRun
  rcases placeBlock_eq_ok_iff.mp hRun with ⟨info, region, -, -, -, rfl⟩
  have hRegions := map_getElem?_modify (g := RegionInfo.parent)
    (f := fun r => { r with layout := r.layout ++ [(b, [])] }) (fun _ => rfl) m.regions
    info.region.index
  exact hKept.of_same hReached rfl rfl (fun _ => rfl) (.of_map (fun _ => rfl) hRegions) hRegions

----
-- Runs
----

theorem change {c : Change} (hPlaces : c.placesNone = true) (hRun : c.run m = .ok () m') :
    m'.NestingKept := by
  have hReached := hKept.reached.change c hRun
  cases c with
  | newOp | appendOp | pushTop => cases hPlaces
  | newPlaceholder =>
    rcases discard_eq_ok hRun with ⟨v, hNew⟩
    cases hNew
    exact hKept.of_same hReached rfl rfl (fun _ => rfl) (.of_map (fun _ => rfl) fun _ => rfl)
      fun _ => rfl
  | newBlock =>
    rcases newBlock_eq_ok hRun with ⟨b, m₁, hDetached, hPlace⟩
    exact (hKept.newDetachedBlock hDetached).placeBlock hPlace
  | newDetachedBlock =>
    rcases discard_eq_ok hRun with ⟨b, hNew⟩
    exact hKept.newDetachedBlock hNew
  | placeBlock => exact hKept.placeBlock hRun
  | addBlockArg =>
    rcases discard_eq_ok hRun with ⟨v, hNew⟩
    rcases addBlockArg_eq_ok_iff.mp hNew with ⟨info, -, -, rfl⟩
    exact hKept.of_same hReached rfl rfl (fun _ => rfl)
      (.of_map (map_getElem?_modify (fun _ => by rfl) _ _) fun _ => rfl) fun _ => rfl
  | setAttr | setSpan | setOperand | replaceAllUses
  | replaceWithConstant => exact hKept.of_sameOwners hReached (.change rfl hRun)
  | removePlaceholder =>
    rcases removePlaceholder_eq_ok_iff.mp hRun with ⟨info, -, -, -, rfl⟩
    exact hKept.of_same hReached rfl rfl (fun _ => rfl) (.of_map (fun _ => rfl) fun _ => rfl)
      fun _ => rfl
  | removeOp =>
    rcases discard_eq_ok hRun with ⟨op, hRemove⟩
    exact hKept.removeOp hRemove

end

end NestingKept

theorem Constructed.nestingKept (hConstructed : m.Constructed) : m.NestingKept := by
  refine hConstructed.induction (p := NestingKept) .of_empty NestingKept.create ?_ ?_
  · exact fun c m m' hPlaces hRun hKept => hKept.change hPlaces hRun
  · intro m handles hOp hValue hBlock hRegion hKept
    exact ⟨hKept.reached.elsewhere hOp hValue hBlock hRegion, hKept.order, hKept.placed,
      hKept.top, hKept.distinct, hKept.regions⟩

----
-- Ancestors
----

namespace NestingKept

variable (hKept : m.NestingKept)
include hKept

theorem index_lt (hWithin : m.Within outer inner) : outer.index < inner.index := by
  rcases hKept.reached.ownersKept.place_of_within hWithin with
    ⟨b, os, info, region, hPlace, hInfo, hRegion, rfl, -, -⟩
  exact hKept.order _ b info region hPlace hInfo hRegion

theorem index_le (hAbove : m.Above outer inner) : outer.index ≤ inner.index := by
  induction hAbove with
  | refl => exact .refl
  | tail _ hWithin ih => exact Nat.le_trans ih (Nat.le_of_lt (hKept.index_lt hWithin))

theorem acyclic (o : OpId) : ¬ Relation.TransGen m.Within o o := by
  intro hCycle
  rcases Relation.TransGen.head'_iff.mp hCycle with ⟨p, hFirst, hRest⟩
  have hBelow := hKept.index_lt hFirst
  have hBack := hKept.index_le hRest
  omega

end NestingKept

/- Two operations around one are around each other. -/
theorem OwnersKept.above_total (hOwners : m.OwnersKept) (hLeft : m.Above p o)
    (hRight : m.Above q o) : m.Above p q ∨ m.Above q p := by
  have hUnique : Relator.RightUnique (Function.swap m.Within) := by
    intro inner outer outer' hThis hThat
    have hSame := hOwners.parentOp_of_within hThis
    rw [hOwners.parentOp_of_within hThat] at hSame
    exact (Option.some.inj (Except.ok.inj hSame)).symm
  rcases Relation.ReflTransGen.total_of_right_unique hUnique (Relation.reflTransGen_swap.mpr hLeft)
    (Relation.reflTransGen_swap.mpr hRight) with hDown | hUp
  · exact .inr (Relation.reflTransGen_swap.mp hDown)
  · exact .inl (Relation.reflTransGen_swap.mp hUp)

----
-- Walks
----

section Joined

variable {α β : Type} {inner : α → Except Fault (List OpId)} {xs : List α}

theorem joinWalks_cons (x : α) (xs : List α) : joinWalks inner (x :: xs) = do
      let first ← inner x
      let rest ← joinWalks inner xs
      return first ++ rest := by simp [joinWalks]

theorem joinWalks_append (xs ys : List α) : joinWalks inner (xs ++ ys) = do
      let first ← joinWalks inner xs
      let rest ← joinWalks inner ys
      return first ++ rest := by simp [joinWalks]

theorem joinWalks_flatMap (f : β → List α) (xs : List β) : joinWalks inner (xs.flatMap f) =
      joinWalks (fun x => joinWalks inner (f x)) xs := by
  induction xs with
  | nil => rfl
  | cons x xs ih => rw [List.flatMap_cons, joinWalks_append, joinWalks_cons, ih]

theorem joinWalks_congr
    (hSame : ∀ x ∈ xs, f (g x) = inner x) : joinWalks f (xs.map g) = joinWalks inner xs := by
  induction xs with
  | nil => rfl
  | cons x xs ih =>
    rw [List.map_cons, joinWalks_cons, joinWalks_cons, hSame x (.head _),
      ih fun y hMember => hSame y (.tail x hMember)]

theorem joinWalks_returns (hEach : ∀ x ∈ xs, ∃ walked, inner x = .ok walked) :
    ∃ walked, joinWalks inner xs = .ok walked := by
  rcases mapM_returns hEach with ⟨lists, hLists⟩
  exact ⟨lists.flatten, by rw [joinWalks, hLists]; rfl⟩

end Joined

/- The operations directly in a region. -/
def opsOf (m : Module) (r : RegionId) : List OpId := (m.regions[r.index]?.map fun region =>
    region.layout.flatMap Prod.snd).getD []

/- The operations directly in an operation. -/
def children (m : Module) (o : OpId) : List OpId :=
  (m.ops[o.index]?.map fun op => op.regions.flatMap m.opsOf).getD []

theorem children_eq (hOp : m.ops[o.index]? = some op) :
    m.children o = op.regions.flatMap m.opsOf := by
  rw [children, hOp, Option.map_some, Option.getD_some]

theorem opsOf_eq (hRegion : m.regions[r.index]? = some region) :
    m.opsOf r = region.layout.flatMap Prod.snd := by
  rw [opsOf, hRegion, Option.map_some, Option.getD_some]

theorem exists_of_mem_opsOf (hMember : c ∈ m.opsOf r) : ∃ region b os,
      m.regions[r.index]? = some region ∧ (b, os) ∈ region.layout ∧ c ∈ os := by
  cases hRegion : m.regions[r.index]? with
  | none => simp [opsOf, hRegion] at hMember
  | some region =>
    rw [opsOf_eq hRegion] at hMember
    rcases List.mem_flatMap.mp hMember with ⟨⟨b, os⟩, hEntry, hIn⟩
    exact ⟨region, b, os, rfl, hEntry, hIn⟩

theorem OwnersKept.mem_children (hOwners : m.OwnersKept) (hMember : c ∈ m.children o) :
    m.Within o c := by
  cases hOp : m.ops[o.index]? with
  | none => simp [children, hOp] at hMember
  | some op =>
    rw [children_eq hOp] at hMember
    rcases List.mem_flatMap.mp hMember with ⟨r, hListed, hIn⟩
    rcases exists_of_mem_opsOf hIn with ⟨region, b, os, hRegion, hEntry, hC⟩
    exact ⟨op, r, region.blocks, b, os, hOp, hListed,
      regionBlocks_eq_ok_iff.mpr ⟨region, hRegion, rfl⟩, List.mem_map.mpr ⟨_, hEntry, rfl⟩,
      hOwners.blockOps_eq hRegion hEntry, hC⟩

/-
  The number of operations that are not older than this one. It
  falls from an operation to those inside, and bounds the depth.
-/
def younger (m : Module) (o : OpId) : Nat := m.ops.keys.countP (o.index ≤ ·)

theorem younger_lt (hOp : m.ops[o.index]? = some op) (hOlder : o.index < c.index) :
    m.younger c < m.younger o := by
  have hKey : o.index ∈ m.ops.keys := by
    rw [Std.TreeMap.mem_keys, Std.TreeMap.mem_iff_isSome_getElem?, hOp]
    rfl
  refine countP_lt (fun k _ hYounger => ?_) hKey ?_ (by simp)
  · simp only [decide_eq_true_eq] at hYounger ⊢
    omega
  · simpa using hOlder

theorem younger_lt_depthLimit (m : Module) (o : OpId) : m.younger o < m.depthLimit := by
  have hCount := List.countP_le_length (l := m.ops.keys) (p := (o.index ≤ ·))
  rw [Std.TreeMap.length_keys] at hCount
  unfold younger depthLimit
  omega

/-
  Walks from operations that are not around each other, each of
  which lists no operation behind one inside it.
-/
theorem joinWalks_ordered (hOwners : m.OwnersKept)
    (hWalk : joinWalks (m.walkOp depth) cs = .ok walked)
    (hEach : ∀ c ∈ cs, ∀ list, m.walkOp depth c = .ok list → list.Pairwise fun a b => ¬ m.Above b a)
    (hApart : cs.Pairwise fun c c' => ¬ m.Above c c' ∧ ¬ m.Above c' c) :
    walked.Pairwise fun a b => ¬ m.Above b a := by
  induction cs generalizing walked with
  | nil =>
    cases hWalk
    exact List.Pairwise.nil
  | cons c cs ih =>
    rw [joinWalks_cons] at hWalk
    rcases bind_eq_ok_iff.mp hWalk with ⟨first, hFirst, hNext⟩
    rcases bind_eq_ok_iff.mp hNext with ⟨rest, hRest, hDone⟩
    cases hDone
    rcases List.pairwise_cons.mp hApart with ⟨hHere, hLater⟩
    refine List.pairwise_append.mpr ⟨hEach c (.head _) first hFirst, ?_, ?_⟩
    · exact ih hRest (fun c' hMember => hEach c' (.tail c hMember)) hLater
    · intro a hA b hB hAbove
      rcases mem_joinWalks hRest hB with ⟨c', hMember, list, hList, hIn⟩
      have hThis := (mem_walkOp_iff hFirst).mp hA
      have hThat := ((mem_walkOp_iff hList).mp hIn).trans hAbove
      rcases hOwners.above_total hThis hThat with hDown | hUp
      · exact (hHere c' hMember).1 hDown
      · exact (hHere c' hMember).2 hUp

section

variable (hKept : m.NestingKept)
include hKept

/- No operation is in two regions or blocks, or twice in one. -/
theorem NestingKept.nodup_children (o : OpId) :
    (m.children o).Nodup := by
  have hOwners := hKept.reached.ownersKept
  cases hOp : m.ops[o.index]? with
  | none => simp [children, hOp]
  | some op =>
    rw [children_eq hOp, List.nodup_flatMap]
    constructor
    · intro r _
      cases hRegion : m.regions[r.index]? with
      | none => simp [opsOf, hRegion]
      | some region =>
        rcases hOwners.layouts _ region hRegion with ⟨hDistinct, hHolds⟩
        rw [opsOf_eq hRegion, List.nodup_flatMap]
        refine ⟨fun e hMember => (hHolds e.1 e.2 hMember).distinct, ?_⟩
        have hApart := List.pairwise_map.mp hDistinct
        refine hApart.imp_of_mem ?_
        intro e e' hMember hMember' hOther c hC hC'
        have hThis := (hHolds e.1 e.2 hMember).places c hC
        rw [(hHolds e'.1 e'.2 hMember').places c hC'] at hThis
        exact hOther (Option.some.inj hThis).symm
    · have hApart := (hKept.regions _ op hOp).1
      refine List.Pairwise.imp ?_ hApart
      intro r r' hOther c hC hC'
      -- the place of an operation is in one region
      have hHome : ∀ r, c ∈ m.opsOf r → ∃ b info, m.places[c.index]? = some b ∧
            m.blocks[b.index]? = some info ∧ info.region = r := by
        intro r hIn
        rcases exists_of_mem_opsOf hIn with ⟨region, b, os, hRegion, hEntry, hAt⟩
        have hHolds := (hOwners.layouts _ region hRegion).2 b os hEntry
        rcases hHolds.block with ⟨info, hInfo, hSame⟩
        exact ⟨b, info, hHolds.places c hAt, hInfo, hSame⟩
      rcases hHome r hC with ⟨b, info, hPlace, hInfo, hThis⟩
      rcases hHome r' hC' with ⟨b', info', hPlace', hInfo', hThat⟩
      cases hPlace.symm.trans hPlace'
      cases hInfo.symm.trans hInfo'
      exact hOther (hThis.symm.trans hThat)

/- A walk goes on with the walks from what is directly inside. -/
theorem walkOp_succ (hOp : m.ops[o.index]? = some op) (depth : Nat) :
    m.walkOp (depth + 1) o = do
      return o :: (← joinWalks (m.walkOp depth) (m.children o)) := by
  have hRegions : joinWalks (m.walkRegion (m.walkOp depth)) op.regions =
        joinWalks (m.walkOp depth) (m.children o) := by
    rw [children_eq hOp, joinWalks_flatMap]
    conv_lhs => rw [← List.map_id op.regions]
    refine joinWalks_congr fun r hMember => ?_
    rcases (hKept.regions _ op hOp).2 r hMember with ⟨region, hRegion⟩
    rw [opsOf_eq hRegion, joinWalks_flatMap]
    have hBlocks : m.regionBlocks r = .ok region.blocks :=
      regionBlocks_eq_ok_iff.mpr ⟨region, hRegion, rfl⟩
    have hLayout : joinWalks (fun b => m.blockOps b >>= joinWalks (m.walkOp depth)) region.blocks =
          joinWalks (fun e => joinWalks (m.walkOp depth) e.2) region.layout := by
      refine joinWalks_congr fun e hEntry => ?_
      rw [hKept.reached.ownersKept.blockOps_eq hRegion hEntry]
      rfl
    rw [← hLayout, id, walkRegion, hBlocks]
    rfl
  have hFound : m.op o = .ok op := op_eq_ok_iff.mpr hOp
  rw [walkOp, hFound, ← hRegions]
  simp only [joinWalks, bind_assoc, pure_bind]
  rfl

----
-- Walks return
----

theorem walkOp_returns (hExists : ∃ op, m.ops[o.index]? = some op)
    (hDepth : m.younger o < depth) : ∃ walked, m.walkOp depth o = .ok walked := by
  have hOwners := hKept.reached.ownersKept
  induction depth generalizing o with
  | zero => omega
  | succ depth ih =>
    rcases hExists with ⟨op, hOp⟩
    have hEach : ∀ c ∈ m.children o, ∃ walked, m.walkOp depth c = .ok walked := by
      intro c hMember
      have hWithin := hOwners.mem_children hMember
      rcases hOwners.place_of_within hWithin with ⟨b, -, -, -, hPlace, -⟩
      have hFewer := younger_lt hOp (hKept.index_lt hWithin)
      exact ih (hKept.placed _ b hPlace) (by omega)
    rcases joinWalks_returns hEach with ⟨walked, hWalk⟩
    exact ⟨o :: walked, by rw [walkOp_succ hKept hOp, hWalk]; rfl⟩

theorem walk_returns : ∃ walked, m.walk = .ok walked := by
  refine joinWalks_returns fun o hMember => ?_
  exact walkOp_returns hKept (hKept.top o hMember).1 (m.younger_lt_depthLimit o)

----
-- Order of walks
----

theorem walkOp_ordered (hWalk : m.walkOp depth o = .ok walked) :
    walked.Pairwise fun a b => ¬ m.Above b a := by
  have hOwners := hKept.reached.ownersKept
  induction depth generalizing o walked with
  | zero => cases hWalk
  | succ depth ih =>
    rcases bind_eq_ok_iff.mp hWalk with ⟨op, hOp, -⟩
    rw [walkOp_succ hKept (op_eq_ok_iff.mp hOp)] at hWalk
    rcases bind_eq_ok_iff.mp hWalk with ⟨nested, hNested, hDone⟩
    cases hDone
    refine List.pairwise_cons.mpr ⟨?_, ?_⟩
    · intro p hMember hAbove
      rcases mem_joinWalks hNested hMember with ⟨c, hC, list, hList, hIn⟩
      have hBelow := hKept.index_lt (hOwners.mem_children hC)
      have hInside := hKept.index_le ((mem_walkOp_iff hList).mp hIn)
      have hBack := hKept.index_le hAbove
      omega
    · refine joinWalks_ordered hOwners hNested (fun c _ list hList => ih hList) ?_
      -- one child around another one would be around their parent
      have hNone : ∀ c ∈ m.children o, ∀ c' ∈ m.children o, c ≠ c' → ¬ m.Above c c' := by
        intro c hC c' hC' hOther hAbove
        have hWithin := hOwners.mem_children hC
        have hWithin' := hOwners.mem_children hC'
        rcases Relation.ReflTransGen.cases_tail hAbove with hSame | ⟨q, hUp, hStep⟩
        · exact hOther hSame.symm
        · have hParent := hOwners.parentOp_of_within hStep
          rw [hOwners.parentOp_of_within hWithin'] at hParent
          cases hParent
          have hBelow := hKept.index_lt hWithin
          have hBack := hKept.index_le hUp
          omega
      refine List.Pairwise.imp_of_mem ?_ (hKept.nodup_children o)
      intro c c' hC hC' hOther
      exact ⟨hNone c hC c' hC' hOther, hNone c' hC' c hC hOther.symm⟩

theorem walk_ordered (hWalk : m.walk = .ok walked) :
    walked.Pairwise fun a b => ¬ m.Above b a := by
  have hOwners := hKept.reached.ownersKept
  refine joinWalks_ordered hOwners hWalk (fun c _ list hList => walkOp_ordered hKept hList) ?_
  -- what is inside another operation is not at the module level
  have hNone : ∀ t t', t' ∈ m.top → t ≠ t' → ¬ m.Above t t' := by
    intro t t' hTop hOther hAbove
    rcases Relation.ReflTransGen.cases_tail hAbove with hSame | ⟨q, -, hStep⟩
    · exact hOther hSame.symm
    · rcases hOwners.place_of_within hStep with ⟨b, -, -, -, hPlace, -⟩
      rw [(hKept.top t' hTop).2] at hPlace
      cases hPlace
  refine List.Pairwise.imp_of_mem ?_ hKept.distinct
  intro t t' hTop hTop' hOther
  exact ⟨hNone t t' hTop' hOther, hNone t' t hTop hOther.symm⟩

end

----
-- Trees of operations
----

/-
  The module is a tree. Places and lists of operations say the
  same, as do the lists of results and arguments and the sources
  of values, and a walk finds every operation once.
-/
structure WellNested (m : Module) : Prop where
  placed : ∀ o b, m.parentBlock? o = some b ↔ ∃ os, m.blockOps b = .ok os ∧ o ∈ os
  once : ∀ b os, m.blockOps b = .ok os → os.Nodup ∧ ∀ o ∈ os, o ∉ m.top
  top : m.top.Nodup
  blocks : ∀ r bs, m.regionBlocks r = .ok bs → bs.Nodup ∧
      ∀ b ∈ bs, ∃ info, m.block b = .ok info ∧ info.region = r
  acyclic : ∀ o, ¬ Relation.TransGen m.Within o o
  walk : ∃ walked, m.walk = .ok walked ∧ walked.Nodup ∧
      (∀ o, o ∈ walked ↔ ∃ t ∈ m.top, m.Above t o) ∧
      ∀ p c, c ∈ walked → m.Within p c → p ∈ walked ∧ walked.idxOf p < walked.idxOf c
  results : ∀ o i v, (∃ op, m.op o = .ok op ∧ op.results[i]? = some v) ↔
        ∃ info, m.value v = .ok info ∧ info.defined = .result o i
  args : ∀ b i v, (∃ info, m.block b = .ok info ∧ info.args[i]? = some v) ↔
        ∃ info, m.value v = .ok info ∧ info.defined = .arg b i

/- Operations come behind the ones around them. -/
theorem idxOf_lt_of_within (hOrdered : walked.Pairwise fun a b => ¬ m.Above b a) (hP : p ∈ walked)
    (hC : c ∈ walked) (hOther : p ≠ c) (hAbove : m.Above p c) :
    walked.idxOf p < walked.idxOf c := by
  by_contra hBehind
  have hBoth := List.pairwise_iff_getElem.mp hOrdered (walked.idxOf c) (walked.idxOf p)
    (List.idxOf_lt_length_of_mem hC) (List.idxOf_lt_length_of_mem hP)
  rw [List.getElem_idxOf, List.getElem_idxOf] at hBoth
  have hPlaces : walked.idxOf c ≠ walked.idxOf p :=
    fun hSame => hOther ((List.idxOf_inj hC).mp hSame).symm
  exact hBoth (by omega) hAbove

theorem NestingKept.walk_lists (hKept : m.NestingKept) : ∃ walked,
      m.walk = .ok walked ∧ walked.Nodup ∧ (∀ o, o ∈ walked ↔ ∃ t ∈ m.top, m.Above t o) ∧
      ∀ p c, c ∈ walked → m.Within p c → p ∈ walked ∧ walked.idxOf p < walked.idxOf c := by
  have hOwners := hKept.reached.ownersKept
  rcases walk_returns hKept with ⟨walked, hWalk⟩
  have hOrdered := walk_ordered hKept hWalk
  refine ⟨walked, hWalk, ?_, fun o => mem_walk_iff hWalk, ?_⟩
  · refine hOrdered.imp fun hApart hSame => ?_
    exact hApart (hSame ▸ .refl)
  · intro p c hC hWithin
    have hP : p ∈ walked := by
      rcases (mem_walk_iff hWalk).mp hC with ⟨t, hTop, hAbove⟩
      rcases Relation.ReflTransGen.cases_tail hAbove with hSame | ⟨q, hUp, hStep⟩
      · rcases hOwners.place_of_within hWithin with ⟨b, -, -, -, hPlace, -⟩
        rw [hSame, (hKept.top t hTop).2] at hPlace
        cases hPlace
      · have hParent := hOwners.parentOp_of_within hStep
        rw [hOwners.parentOp_of_within hWithin] at hParent
        cases hParent
        exact (mem_walk_iff hWalk).mpr ⟨t, hTop, hUp⟩
    have hBelow := hKept.index_lt hWithin
    refine ⟨hP, idxOf_lt_of_within hOrdered hP hC ?_ (.single hWithin)⟩
    exact fun hSame => Nat.ne_of_lt hBelow (congrArg OpId.index hSame)

/- Modules that builders construct are trees. -/
theorem Constructed.wellNested (hConstructed : m.Constructed) : m.WellNested := by
  have hKept := hConstructed.nestingKept
  have hOwners := hKept.reached.ownersKept
  have hDefined := hKept.reached.definitionsKept
  refine
    { placed := fun o b => hKept.reached.parentBlock?_eq_some_iff
      once := ?_
      top := hKept.distinct
      blocks := ?_
      acyclic := hKept.acyclic
      walk := hKept.walk_lists
      results := ?_
      args := ?_ }
  · intro b os hOps
    rcases hOwners.of_blockOps hOps with ⟨hDistinct, hPlaces⟩
    refine ⟨hDistinct, fun o hIn hTop => ?_⟩
    have hPlace := hPlaces o hIn
    rw [(hKept.top o hTop).2] at hPlace
    cases hPlace
  · intro r bs hBlocks
    rcases regionBlocks_eq_ok_iff.mp hBlocks with ⟨region, hRegion, rfl⟩
    rcases hOwners.layouts _ region hRegion with ⟨hDistinct, hHere⟩
    refine ⟨hDistinct, fun b hMember => ?_⟩
    rcases List.mem_map.mp hMember with ⟨⟨c, os⟩, hEntry, rfl⟩
    rcases (hHere c os hEntry).block with ⟨info, hInfo, hHome⟩
    exact ⟨info, block_eq_ok_iff.mpr hInfo, hHome⟩
  · intro o i v
    constructor
    · rintro ⟨op, hOp, hAt⟩
      rcases Option.map_eq_some_iff.mp
        (hDefined.results _ op (op_eq_ok_iff.mp hOp) i v hAt) with ⟨info, hInfo, hSource⟩
      exact ⟨info, value_eq_ok_iff.mpr hInfo, hSource⟩
    · rintro ⟨info, hInfo, hSource⟩
      rcases hOwners.results _ info (value_eq_ok_iff.mp hInfo) o i hSource with ⟨op, hOp, hAt⟩
      exact ⟨op, op_eq_ok_iff.mpr hOp, hAt⟩
  · intro b i v
    constructor
    · rintro ⟨block, hBlock, hAt⟩
      rcases Option.map_eq_some_iff.mp
        (hDefined.args _ block (block_eq_ok_iff.mp hBlock) i v hAt) with ⟨info, hInfo, hSource⟩
      exact ⟨info, value_eq_ok_iff.mpr hInfo, hSource⟩
    · rintro ⟨info, hInfo, hSource⟩
      rcases hDefined.held b i v (Option.map_eq_some_iff.mpr
        ⟨info, value_eq_ok_iff.mp hInfo, hSource⟩) with ⟨block, hBlock, hAt⟩
      exact ⟨block, block_eq_ok_iff.mpr hBlock, hAt⟩

/- A conditional in a function, and the end of its first branch. -/
theorem Constructed.wellNested_conditional : ∃ m, (emptyAfter {}).built
        [([], .func "f" (.function [] [])), ([], .funcBody ⟨0⟩), ([⟨0⟩], .constInt .i1 1),
          ([⟨0⟩], .ifOp ⟨0⟩ [] true), ([⟨1⟩, ⟨0⟩], .result []), ([⟨0⟩], .ret [])] = some m ∧
      m.Constructed ∧ m.walk = .ok [⟨0⟩, ⟨1⟩, ⟨2⟩, ⟨3⟩, ⟨4⟩] ∧ m.WellNested := by
  have hFound : ∃ m ∈ (emptyAfter {}).built [([], .func "f" (.function [] [])), ([], .funcBody ⟨0⟩),
          ([⟨0⟩], .constInt .i1 1), ([⟨0⟩], .ifOp ⟨0⟩ [] true), ([⟨1⟩, ⟨0⟩], .result []),
          ([⟨0⟩], .ret [])], m.walk = .ok [⟨0⟩, ⟨1⟩, ⟨2⟩, ⟨3⟩, ⟨4⟩] := by decide +kernel
  rcases hFound with ⟨m, hBuilt, hWalk⟩
  have hConstructed : m.Constructed :=
    built_keeps (fun s b _ b' hRun hBefore => .build s hBefore hRun) (.empty {}) hBuilt
  exact ⟨m, hBuilt, hConstructed, hWalk, hConstructed.wellNested⟩

end Module

end FortranIR
