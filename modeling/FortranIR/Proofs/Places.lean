import FortranIR.Proofs.Owners

/-
  This file proves that an operation with a place is listed
  there: its block is placed in a region that lists the
  operation in it.

  Together with the owners of regions, this gives every placed
  operation one operation around it.

  Main declarations:
    * `Module.ListedAt`
    * `Module.Reached.placesKept`
-/

namespace FortranIR

variable {b : BlockId} {r : RegionId} {o : OpId}

namespace Module

variable {m m' : Module}

/- An operation is listed in a block of a region. -/
def ListedAt (m : Module) (o : OpId) (b : BlockId) : Prop := ∃ info region os,
    m.blocks[b.index]? = some info ∧ m.regions[info.region.index]? = some region ∧
    (b, os) ∈ region.layout ∧ o ∈ os

/- Operations are listed where they are placed. -/
def PlacesKept (m : Module) : Prop := ∀ (o : OpId) (b : BlockId), m.places[o.index]? = some b →
    m.ListedAt o b

/- An operation stays listed if its block and its region stay. -/
theorem ListedAt.mono (hListed : m.ListedAt o b) (hBlocks :
      ∀ info : BlockInfo, m.blocks[b.index]? = some info →
        ∃ new : BlockInfo, m'.blocks[b.index]? = some new ∧ new.region = info.region)
    (hRegions : ∀ (k : Nat) (region : RegionInfo) (os : List OpId), m.regions[k]? = some region →
        (b, os) ∈ region.layout → o ∈ os → ∃ (new : RegionInfo) (os' : List OpId),
            m'.regions[k]? = some new ∧ (b, os') ∈ new.layout ∧ o ∈ os') : m'.ListedAt o b := by
  rcases hListed with ⟨info, region, os, hInfo, hRegion, hMember, hIn⟩
  rcases hBlocks info hInfo with ⟨new, hNew, hSame⟩
  rcases hRegions _ region os hRegion hMember hIn with ⟨region', os', hRegion', hMember', hIn'⟩
  exact ⟨new, region', os', hNew, hSame ▸ hRegion', hMember', hIn'⟩

namespace PlacesKept

----
-- Nesting
----

/- A placed operation is within the operation around it. -/
theorem within (hKept : m.PlacesKept) (hOwners : m.OwnersKept)
    (hPlace : m.places[o.index]? = some b) :
    ∃ info region, m.blocks[b.index]? = some info ∧ m.regions[info.region.index]? = some region ∧
      m.Within region.parent o := by
  rcases hKept o b hPlace with ⟨info, region, os, hInfo, hRegion, hMember, hIn⟩
  rcases hOwners.regions _ region hRegion with ⟨-, op, hOp, hListed⟩
  exact ⟨info, region, hInfo, hRegion, op, info.region, region.blocks,
    b, os, hOp, hListed, regionBlocks_eq_ok_iff.mpr ⟨region, hRegion, rfl⟩,
    List.mem_map.mpr ⟨(b, os), hMember, rfl⟩, hOwners.blockOps_eq hRegion hMember, hIn⟩

----
-- Changes
----

theorem of_empty (handles : Handles) : (emptyAfter handles).PlacesKept := by
  intro o b hPlace
  simp [emptyAfter] at hPlace

section

variable (hKept : m.PlacesKept)
include hKept

/- A change that leaves places and layouts as they are. -/
theorem of_same (hPlaces : m'.places = m.places) (hBlocks :
      ∀ (k : Nat) (info : BlockInfo), m.blocks[k]? = some info →
        ∃ new : BlockInfo, m'.blocks[k]? = some new ∧ new.region = info.region)
    (hRegions : ∀ (k : Nat) (region : RegionInfo),
        m.regions[k]? = some region → m'.regions[k]? = some region) : m'.PlacesKept := by
  intro o b hPlace
  rw [hPlaces] at hPlace
  refine (hKept o b hPlace).mono (hBlocks b.index) ?_
  intro k region os hRegion hMember hIn
  exact ⟨region, os, hRegions k region hRegion, hMember, hIn⟩

theorem of_sameOwners (hSame : m.SameOwners m') : m'.PlacesKept :=
  hKept.of_same hSame.places hSame.block fun _ _ hRegion => hSame.regions ▸ hRegion

theorem of_unchanged (hPlaces : m'.places = m.places) (hBlocks : m'.blocks = m.blocks)
    (hRegions : m'.regions = m.regions) : m'.PlacesKept :=
  hKept.of_same hPlaces (fun _ info hInfo => ⟨info, hBlocks ▸ hInfo, rfl⟩)
    (fun _ _ hRegion => hRegions ▸ hRegion)

theorem newOp (hOwners : m.OwnersKept)
    (hRun : Module.newOp kind operands types attrs count successors m = .ok o m') :
    m'.PlacesKept := by
  rcases newOp_eq_ok hRun with
    ⟨rfl, -, -, values, blocks, regions, rfl, -, hBlocks, hRegions⟩
  refine hKept.of_same rfl ?_ ?_
  · intro k info hInfo
    refine ⟨_, by rw [hBlocks, hInfo, Option.map_some], ?_⟩
    split <;> rfl
  · intro k region hRegion
    have hKey := (hOwners.regions k region hRegion).1
    simp only [hRegions k, Nat.not_le.mpr hKey, false_and, if_false]
    exact hRegion

theorem newDetachedBlock (hUsers : m.UsersKept)
    (hRun : Module.newDetachedBlock r types m = .ok b m') : m'.PlacesKept := by
  rcases newDetachedBlock_run r types m with ⟨values, hRun', -⟩
  cases hRun'.symm.trans hRun
  refine hKept.of_same rfl ?_ fun _ _ hRegion => hRegion
  intro k info hInfo
  have hKey := hUsers.blocks k info hInfo
  refine ⟨info, ?_, rfl⟩
  rw [getElem?_insert_nat, if_neg (Nat.ne_of_gt hKey)]
  exact hInfo

/- A change of layouts that takes no operation out of a block. -/
theorem of_layout {f : RegionInfo → List (BlockId × List OpId)} {places : Std.TreeMap Nat BlockId}
    (hPlaces : ∀ (o : OpId) (b : BlockId), places[o.index]? = some b → m.places[o.index]? = some b ∧
          ∀ (region : RegionInfo) (os : List OpId), m.regions[r.index]? = some region →
            (b, os) ∈ region.layout → o ∈ os → ∃ os', (b, os') ∈ f region ∧ o ∈ os') :
    { m with
      regions := m.regions.modify r.index fun region => { region with layout := f region }
      places := places : Module }.PlacesKept := by
  intro o b hPlace
  rcases hPlaces o b hPlace with ⟨hBefore, hStays⟩
  refine (hKept o b hBefore).mono (fun info hInfo => ⟨info, hInfo, rfl⟩) ?_
  intro k region os hRegion hMember hIn
  simp only [getElem?_modify_nat, hRegion, Option.map_some]
  by_cases hSame : r.index = k
  · subst hSame
    rcases hStays region os hRegion hMember hIn with ⟨os', hMember', hIn'⟩
    exact ⟨_, os', if_pos rfl, hMember', hIn'⟩
  · exact ⟨region, os, if_neg hSame, hMember, hIn⟩

theorem placeBlock (hRun : Module.placeBlock b m = .ok () m') : m'.PlacesKept := by
  rcases placeBlock_eq_ok_iff.mp hRun with ⟨info, region, -, -, -, rfl⟩
  refine hKept.of_layout (f := fun r => r.layout ++ [(b, [])]) ?_
  intro o c hPlace
  refine ⟨hPlace, fun found os _ hMember hIn => ⟨os, ?_, hIn⟩⟩
  exact List.mem_append_left _ hMember

theorem appendOp (hRun : Module.appendOp b o m = .ok () m') : m'.PlacesKept := by
  rcases appendOp_eq_ok_iff.mp hRun with ⟨info, region, os, -, hInfo, hRegion, hOps, -, rfl⟩
  intro p c hPlace
  simp only [getElem?_insert_nat] at hPlace
  split at hPlace
  · -- the operation itself is now the last one of its block
    rename_i hSame
    cases hPlace
    have hSelf : o = p := OpId.ext hSame
    subst hSelf
    refine ⟨info, { region with layout := updateLayout b (· ++ [o]) region.layout },
      os ++ [o], hInfo, by simp only [getElem?_modify_nat, hRegion, if_true, Option.map_some], ?_,
      List.mem_append_right _ (.head _)⟩
    exact mem_updateLayout (f := (· ++ [o])).mpr ⟨os, mem_of_lookup hOps, (if_pos rfl).symm⟩
  · have hStays : ∀ (q : OpId) (d : BlockId), m.places[q.index]? = some d →
          m.places[q.index]? = some d ∧ ∀ (found : RegionInfo) (qs : List OpId),
              m.regions[info.region.index]? = some found →
              (d, qs) ∈ found.layout → q ∈ qs → ∃ qs', (d, qs') ∈
                  updateLayout b (· ++ [o]) found.layout ∧ q ∈ qs' := by
      intro q d hBefore
      refine ⟨hBefore, fun found qs _ hMember hIn =>
        ⟨_, mem_updateLayout.mpr ⟨qs, hMember, rfl⟩, ?_⟩⟩
      split
      · exact List.mem_append_left _ hIn
      · exact hIn
    exact hKept.of_layout hStays p c hPlace

/- An operation that is left has its block and its region left. -/
theorem removeOp (hUsers : m.UsersKept) (hOwners : m.OwnersKept) {op : Operation}
    (hRun : Module.removeOp o m = .ok op m') : m'.PlacesKept := by
  rcases removeOp_cuts hUsers hOwners hRun with ⟨gone, hCuts⟩
  intro p b hPlace'
  rcases hCuts.places.some_iff.mp hPlace' with ⟨hPlace, hLeft⟩
  rcases hKept.within hOwners hPlace with ⟨info, region, hInfo, hRegion, hWithin⟩
  rcases hKept p b hPlace with ⟨info', region', os, hInfo', hRegion', hMember, hIn⟩
  cases hInfo.symm.trans hInfo'
  cases hRegion.symm.trans hRegion'
  have hStays : ¬ m.OwnsRegion (· ∈ gone) info.region :=
    fun hOwns => hLeft (hCuts.closed ((hOwners.ownsRegion_iff hRegion).mp hOwns) hWithin)
  refine ⟨_, _, os.filter (· ∉ gone), (hCuts.blocks _ _).mpr ⟨info, hInfo, ?_, rfl⟩,
    (hCuts.regions _ _).mpr ⟨region, hRegion, hStays, rfl⟩, ?_, ?_⟩
  · exact fun hOwns => hStays (hOwners.ownsRegion_of_ownsBlock hInfo hOwns)
  · exact List.mem_map.mpr ⟨(b, os), hMember, rfl⟩
  · exact List.mem_filter.mpr ⟨hIn, decide_eq_true hLeft⟩

----
-- Runs
----

theorem change (hUsers : m.UsersKept) (hOwners : m.OwnersKept) {c : Change}
    (hRun : c.run m = .ok () m') : m'.PlacesKept := by
  cases c with
  | newOp =>
    rcases discard_eq_ok hRun with ⟨o, hNew⟩
    exact hKept.newOp hOwners hNew
  | newPlaceholder =>
    rcases discard_eq_ok hRun with ⟨v, hNew⟩
    cases hNew
    exact hKept.of_unchanged rfl rfl rfl
  | newBlock =>
    rcases newBlock_eq_ok hRun with ⟨b, m₁, hDetached, hPlace⟩
    exact (hKept.newDetachedBlock hUsers hDetached).placeBlock hPlace
  | newDetachedBlock =>
    rcases discard_eq_ok hRun with ⟨b, hNew⟩
    exact hKept.newDetachedBlock hUsers hNew
  | placeBlock => exact hKept.placeBlock hRun
  | addBlockArg =>
    rcases discard_eq_ok hRun with ⟨v, hNew⟩
    rcases addBlockArg_eq_ok_iff.mp hNew with ⟨info, -, -, rfl⟩
    refine hKept.of_same rfl ?_ fun _ _ hRegion => hRegion
    exact fun k found => exists_of_map_eq (map_getElem?_modify (fun _ => by rfl) _ _ k)
  | appendOp => exact hKept.appendOp hRun
  | pushTop =>
    rcases pushTop_eq_ok_iff.mp hRun with ⟨-, rfl⟩
    exact hKept.of_unchanged rfl rfl rfl
  | setAttr | setSpan | setOperand | replaceAllUses
  | replaceWithConstant => exact hKept.of_sameOwners (.change rfl hRun)
  | removePlaceholder =>
    rcases removePlaceholder_eq_ok_iff.mp hRun with ⟨info, -, -, -, rfl⟩
    exact hKept.of_unchanged rfl rfl rfl
  | removeOp =>
    rcases discard_eq_ok hRun with ⟨op, hRemove⟩
    exact hKept.removeOp hUsers hOwners hRemove

end

end PlacesKept

theorem Reached.placesKept (hReached : m.Reached) : m.PlacesKept := by
  induction hReached with
  | empty handles => exact .of_empty handles
  | change c hReached hRun ih => exact ih.change hReached.usersKept hReached.ownersKept hRun
  | elsewhere _ _ _ _ _ ih => exact ih.of_unchanged rfl rfl rfl

theorem Reached.parentBlock?_eq_some_iff (hReached : m.Reached) : m.parentBlock? o = some b ↔
      ∃ os, m.blockOps b = .ok os ∧ o ∈ os := by
  constructor
  · intro hPlace
    rcases hReached.placesKept o b hPlace with ⟨info, region, os, -, hRegion, hMember, hIn⟩
    exact ⟨os, hReached.ownersKept.blockOps_eq hRegion hMember, hIn⟩
  · rintro ⟨os, hOps, hIn⟩
    exact (hReached.ownersKept.of_blockOps hOps).2 o hIn

end Module

end FortranIR
