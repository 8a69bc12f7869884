import FortranIR.Proofs.Frame
import FortranIR.Proofs.Nesting

/-
  This file states what holds of a module while it is assembled,
  also behind errors: it comes from an empty one by changes that
  return, operations are placed in the order of their handles,
  and blocks are in regions of the module.

  Main declarations:
    * `Change.assembles`
    * `Module.Assembled.newOp`
-/

namespace FortranIR

variable {b : BlockId} {types : List Ty}

/- The changes of assembly, but for operations and their places. -/
def Change.assembles : Change → Bool
  | .newPlaceholder _ | .newDetachedBlock .. | .placeBlock _ | .addBlockArg .. | .setSpan ..
  | .replaceAllUses .. | .removePlaceholder _ => true
  | _ => false

namespace Module

variable {m : Module}

/- A module that is being assembled. -/
structure Assembled (m : Module) : Prop extends NestingKept m where
  homes : ∀ (k : Nat) (info : BlockInfo), m.blocks[k]? = some info →
      info.region.index < m.handles.region

/- An operation is in a block or at the module level. -/
def HasPlace (m : Module) (o : OpId) : Prop := m.places[o.index]? ≠ none ∨ o ∈ m.top

/- A value has taken the place of a placeholder. -/
structure Resolved (p v : ValueId) (m m' : Module) : Prop where
  assembled : m'.Assembled
  ops : ∀ k : Nat, m'.ops[k]? = m.ops[k]?.map fun op =>
        { op with operands := op.operands.map (replaced p v) }
  values : ∀ (w : ValueId) (info : ValueInfo), m.values[w.index]? = some info → w ≠ p →
      ∃ users, m'.values[w.index]? = some { info with users := users }
  blocks : m'.blocks = m.blocks
  regions : m'.regions = m.regions
  places : m'.places = m.places
  top : m'.top = m.top
  handles : m'.handles = m.handles

/-
  Values and blocks have been added. Only the blocks in `opened`
  have got more arguments.
-/
structure Adds (opened : BlockId → Prop) (m m' : Module) : Prop where
  assembled : m'.Assembled
  handles : m.handles.Before m'.handles
  ops : m'.ops = m.ops
  values : ∀ (k : Nat) (info : ValueInfo), m.values[k]? = some info → m'.values[k]? = some info
  blocks : ∀ (b : BlockId) (info : BlockInfo), m.blocks[b.index]? = some info → ∃ info',
      m'.blocks[b.index]? = some info' ∧ info'.region = info.region ∧
      (¬ opened b → info'.args = info.args)
  regions : m'.regions = m.regions
  places : m'.places = m.places
  top : m'.top = m.top

namespace Adds

theorem refl (hAssembled : m.Assembled) : m.Adds opened m :=
  ⟨hAssembled, .refl _, rfl, fun _ _ hInfo => hInfo,
    fun _ info hInfo => ⟨info, hInfo, rfl, fun _ => rfl⟩, rfl, rfl, rfl⟩

theorem trans {m₁ : Module} (hFirst : m₁.Adds opened m₂) (hSecond : m₂.Adds opened m₃) :
    m₁.Adds opened m₃ where
  assembled := hSecond.assembled
  handles := hFirst.handles.trans hSecond.handles
  ops := hSecond.ops.trans hFirst.ops
  values := fun k info hInfo => hSecond.values k info (hFirst.values k info hInfo)
  blocks := by
    intro b info hInfo
    rcases hFirst.blocks b info hInfo with ⟨info₁, hInfo₁, hRegion₁, hArgs₁⟩
    rcases hSecond.blocks b info₁ hInfo₁ with ⟨info₂, hInfo₂, hRegion₂, hArgs₂⟩
    exact ⟨info₂, hInfo₂, hRegion₂.trans hRegion₁,
      fun hClosed => (hArgs₂ hClosed).trans (hArgs₁ hClosed)⟩
  regions := hSecond.regions.trans hFirst.regions
  places := hSecond.places.trans hFirst.places
  top := hSecond.top.trans hFirst.top

/- Blocks get arguments before they are placed. -/
theorem frame (hAdds : m.Adds opened m')
    (hUnplaced : ∀ b info, m.blocks[b.index]? = some info → opened b →
        openRegion info.region ∧ ∀ os, m.blockOps b ≠ .ok os) :
    m.Frame id openRegion openBlock m' := by
  refine .of_additions hAdds.handles (fun k op hOp => ⟨op.span, hAdds.ops ▸ hOp⟩)
    (fun k info hInfo => ⟨info.users, hAdds.values k info hInfo⟩) (fun b info hInfo => ?_)
    (fun k info hInfo => hAdds.regions ▸ hInfo)
  rcases hAdds.blocks b info hInfo with ⟨info', hInfo', hRegion, hArgs⟩
  refine ⟨info', hInfo', hRegion, fun hPlaced => hArgs fun hOpened => ?_⟩
  rcases hUnplaced b info hInfo hOpened with ⟨hOpen, hNone⟩
  rcases hPlaced hOpen with ⟨os, hOps⟩
  exact hNone os hOps

end Adds

/- New values are defined one after another. -/
theorem definesAll_new (hEntries : ∀ k, first ≤ k →
        k < first + types.length → m.values[k]? = types[k - first]?.map fun t =>
          { type := t, defined := defined (k - first) }) :
    m.DefinesAll defined (valueIds first types.length) types := by
  refine ⟨by simp [valueIds], ?_⟩
  intro i v t hValue hType
  rcases getElem?_valueIds.mp hValue with ⟨hBound, hIndex⟩
  refine ⟨[], ?_⟩
  rw [hEntries v.index (by omega) (by omega), hIndex, Nat.add_sub_cancel_left, hType]
  rfl

namespace Assembled

theorem of_empty (handles : Handles) : (emptyAfter handles).Assembled :=
  ⟨.of_empty handles, by simp [emptyAfter]⟩

section

variable (hAssembled : m.Assembled)
include hAssembled

theorem bounded : m.Bounded := by
  have hUsers := hAssembled.reached.usersKept
  have hOwners := hAssembled.reached.ownersKept
  have hPlaces : ∀ k b, m.places[k]? = some b → k < m.handles.op := by
    intro k b hPlace
    rcases hAssembled.placed k b hPlace with ⟨op, hOp⟩
    exact (hUsers.ops k op hOp).1
  refine
    { ops := fun k op hOp => (hUsers.ops k op hOp).1
      values := hUsers.values
      blocks := fun k info hInfo => ⟨hUsers.blocks k info hInfo, hAssembled.homes k info hInfo⟩
      regions := ?_
      places := hPlaces
      top := ?_ }
  · intro k region hRegion
    have hHolds := (hOwners.layouts k region hRegion).2
    refine ⟨(hOwners.regions k region hRegion).1, ?_, ?_⟩
    · intro b hMember
      rcases List.mem_map.mp hMember with ⟨⟨c, os⟩, hEntry, rfl⟩
      rcases (hHolds c os hEntry).block with ⟨info, hInfo, -⟩
      exact hUsers.blocks _ info hInfo
    · exact fun e hEntry o hMember => hPlaces _ e.1 ((hHolds e.1 e.2 hEntry).places o hMember)
  · intro o hMember
    rcases (hAssembled.top o hMember).1 with ⟨op, hOp⟩
    exact (hUsers.ops _ op hOp).1

/- The users of a value exist. -/
theorem users_exist {v : ValueId} (hInfo : m.values[v.index]? = some info)
    (hUser : o ∈ info.users) : ∃ op, m.ops[o.index]? = some op := by
  rw [hAssembled.reached.usersKept.valueUsers _ info hInfo, uses_iff] at hUser
  rcases hUser with ⟨op, hOp, -⟩
  exact ⟨op, hOp⟩

theorem change {c : Change} (hKind : c.assembles = true) (hHome :
      ∀ r types, c = .newDetachedBlock r types → r.index < m.handles.region)
    (hRun : c.run m = .ok () m') : m'.Assembled := by
  have hHomes := hAssembled.homes
  refine ⟨hAssembled.toNestingKept.change ?_ hRun, fun k info hInfo => ?_⟩
  · cases c <;> first | rfl | cases hKind
  cases c with
  | newPlaceholder =>
    rcases discard_eq_ok hRun with ⟨v, hNew⟩
    cases hNew
    exact hHomes k info hInfo
  | newDetachedBlock r types =>
    rcases discard_eq_ok hRun with ⟨b, hNew⟩
    rcases newDetachedBlock_run r types m with ⟨values, hRun', -⟩
    cases hRun'.symm.trans hNew
    rw [getElem?_insert_nat] at hInfo
    split at hInfo
    · cases hInfo
      exact hHome r types rfl
    · exact hHomes k info hInfo
  | placeBlock =>
    rcases placeBlock_eq_ok_iff.mp hRun with ⟨_, _, -, -, -, rfl⟩
    exact hHomes k info hInfo
  | addBlockArg =>
    rcases discard_eq_ok hRun with ⟨v, hNew⟩
    rcases addBlockArg_eq_ok_iff.mp hNew with ⟨_, -, -, rfl⟩
    rcases entry_of_modify hInfo with ⟨old, hOld, rfl | rfl⟩
    · exact hHomes k old hOld
    · exact hHomes k old hOld
  | setSpan _ _ | replaceAllUses _ _ =>
    have hSame := SameOwners.change rfl hRun
    rcases exists_of_map_eq (hSame.blocks k).symm hInfo with ⟨old, hOld, hHome⟩
    rw [← (Prod.mk.inj hHome).1]
    exact Nat.lt_of_lt_of_le (hHomes k old hOld) hSame.handle
  | removePlaceholder =>
    rcases removePlaceholder_eq_ok_iff.mp hRun with ⟨_, -, -, -, rfl⟩
    exact hHomes k info hInfo
  | _ => cases hKind

/- A placeholder gives way to a value that is none. -/
theorem resolve {p v : ValueId} (hInfo : m.values[p.index]? = some info)
    (hKind : info.defined = .placeholder) (hTarget : m.values[v.index]? = some target)
    (hReal : target.defined ≠ .placeholder) : p ≠ v ∧ ∃ m₁ m₂,
      Module.replaceAllUses p v m = .ok () m₁ ∧ Module.removePlaceholder p m₁ = .ok () m₂ ∧
      m.Resolved p v m₂ := by
  have hDistinct : p ≠ v := by
    rintro rfl
    cases hInfo.symm.trans hTarget
    exact hReal hKind
  rcases replaceAllUses_run hDistinct hInfo (fun o hUser => hAssembled.users_exist hInfo hUser)
    ⟨target, hTarget⟩ with ⟨ops, values, hReplace, hRedirects⟩
  have hRemove := removePlaceholder_eq_ok_iff (m := { m with ops := ops, values := values }).mpr
    ⟨_, hRedirects.2.1, hKind, rfl, rfl⟩
  have hNext := hAssembled.change (c := .replaceAllUses p v) rfl nofun hReplace
  refine ⟨hDistinct, _, _, hReplace, hRemove,
    hNext.change (c := .removePlaceholder p) rfl nofun hRemove,
    hAssembled.reached.usersKept.redirects hInfo hRedirects, ?_, rfl, rfl, rfl, rfl, rfl⟩
  intro w other hOther hNot
  have hKey : w.index ≠ p.index := fun hSame => hNot (ValueId.ext hSame)
  rw [getElem?_erase_nat, if_neg (Ne.symm hKey), hRedirects.2.2 _ hKey, hOther]
  split
  · exact ⟨_, rfl⟩
  · exact ⟨other.users, rfl⟩

----
-- Additions
----

theorem newPlaceholder (t : Ty) : ∃ m', Module.newPlaceholder t m = .ok ⟨m.handles.value⟩ m' ∧
      m.Adds (fun _ => False) m' ∧
      m'.values[m.handles.value]? = some { type := t, defined := .placeholder } := by
  refine ⟨_, rfl, ⟨hAssembled.change (c := .newPlaceholder t) rfl nofun rfl,
    ⟨.refl, Nat.le_succ _, .refl, .refl⟩, rfl, fun k info hInfo => ?_,
    fun _ info hInfo => ⟨info, hInfo, rfl, fun _ => rfl⟩, rfl, rfl, rfl⟩, ?_⟩
  · have hBelow := hAssembled.bounded.values k info hInfo
    rw [getElem?_insert_nat, if_neg (Nat.ne_of_gt hBelow), hInfo]
  · rw [getElem?_insert_nat, if_pos rfl]

/- A block without a place is added, with its arguments. -/
theorem newDetachedBlock (hRegion : m.regionBlocks r = .ok bs)
    (types : List Ty) : ∃ m', Module.newDetachedBlock r types m = .ok ⟨m.handles.block⟩ m' ∧
      m.Adds (fun _ => False) m' ∧ m'.blocks[m.handles.block]? = some
          { region := r, args := valueIds m.handles.value types.length } ∧
      m'.DefinesAll (.arg ⟨m.handles.block⟩) (valueIds m.handles.value types.length) types := by
  rcases newDetachedBlock_run r types m with ⟨values, hRun, hValues⟩
  have hBounded := hAssembled.bounded
  refine ⟨_, hRun, ⟨?_, ⟨.refl, Nat.le_add_right _ _, Nat.le_succ _, .refl⟩, rfl,
    fun k info hInfo => ?_, fun b info hInfo => ⟨info, ?_, rfl, fun _ => rfl⟩, rfl, rfl, rfl⟩,
    ?_, definesAll_new fun k hAbove hBelow => ?_⟩
  · refine hAssembled.change (c := .newDetachedBlock r types) rfl ?_ (bind_of_ok hRun rfl)
    rintro _ _ ⟨⟩
    exact (hBounded.of_regionBlocks hRegion).1
  · have hBelow := hBounded.values k info hInfo
    rw [hValues k, if_neg (by omega), hInfo]
  · have hBelow := (hBounded.blocks _ info hInfo).1
    rw [getElem?_insert_nat, if_neg (Nat.ne_of_gt hBelow), hInfo]
  · rw [getElem?_insert_nat, if_pos rfl]
  · rw [hValues k, if_pos ⟨hAbove, hBelow⟩]

theorem addBlockArg (t : Ty) (hInfo : m.blocks[b.index]? = some info) : ∃ m',
      Module.addBlockArg b t m = .ok ⟨m.handles.value⟩ m' ∧ m.Adds (· = b) m' ∧
      m'.handles.value = m.handles.value + 1 ∧
      m'.values[m.handles.value]? = some { type := t, defined := .arg b info.args.length } ∧
      ∀ k : Nat, m'.blocks[k]? = if b.index = k then
          some { info with args := info.args ++ [⟨m.handles.value⟩] } else m.blocks[k]? := by
  have hRun := addBlockArg_eq_ok_iff (t := t).mpr ⟨info, hInfo, rfl, rfl⟩
  refine ⟨_, hRun, ⟨hAssembled.change (c := .addBlockArg b t) rfl nofun (bind_of_ok hRun rfl),
    ⟨.refl, Nat.le_succ _, .refl, .refl⟩, rfl, fun k old hOld => ?_,
    fun c old hOld => ?_, rfl, rfl, rfl⟩, rfl, ?_, fun k => ?_⟩
  · have hBelow := hAssembled.bounded.values k old hOld
    rw [getElem?_insert_nat, if_neg (Nat.ne_of_gt hBelow), hOld]
  · refine ⟨_, by rw [getElem?_modify_map, hOld]; rfl, ?_⟩
    split
    · rename_i hSame
      exact ⟨rfl, fun hOther => absurd (BlockId.ext hSame).symm hOther⟩
    · exact ⟨rfl, fun _ => rfl⟩
  · rw [getElem?_insert_nat, if_pos rfl]
  · rw [getElem?_modify_nat]
    split
    · rename_i hSame
      rw [← hSame, hInfo]
      rfl
    · rfl

----
-- Operations
----

theorem newOp
    (hRun :
      Module.newOp kind operands types attrs count successors m = .ok o m') : m'.Assembled := by
  refine ⟨hAssembled.toNestingKept.newOp hRun, ?_⟩
  rcases newOp_eq_ok hRun with ⟨-, -, -, values, blocks, regions, rfl, -, hBlocks, -⟩
  intro k info hInfo
  simp only [hBlocks k, Option.map_eq_some_iff] at hInfo
  rcases hInfo with ⟨old, hOld, rfl⟩
  have hBelow := hAssembled.homes k old hOld
  split <;> exact Nat.lt_add_right count hBelow

theorem pushTop (hNewest : m.Newest o) (hRun : Module.pushTop o m = .ok () m') : m'.Assembled := by
  refine ⟨hAssembled.toNestingKept.pushTop hNewest hRun, ?_⟩
  rcases pushTop_eq_ok_iff.mp hRun with ⟨-, rfl⟩
  exact hAssembled.homes

theorem appendOp (hNewest : m.Newest o) (hRun : Module.appendOp b o m = .ok () m') :
    m'.Assembled := by
  refine ⟨hAssembled.toNestingKept.appendOp hNewest hRun, ?_⟩
  rcases appendOp_eq_ok_iff.mp hRun with ⟨_, _, _, -, -, -, -, -, rfl⟩
  exact hAssembled.homes

end

end Assembled

end Module

end FortranIR
