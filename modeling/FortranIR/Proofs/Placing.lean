import FortranIR.Proofs.Places

/-
  This file proves how often an operation can be placed.

  Each of the two calls that place an operation only looks at the
  kind of place that it fills. So an operation is in one block at
  most, and once at the module level, but it can be in both, and
  even in a block of itself.

  Main declarations:
    * `Module.Reached.nodup_top`
    * `Module.Reached.one_place`
-/

namespace FortranIR.Module

variable {o : OpId} {b : BlockId} {m m' : Module}

----
-- The module level
----

theorem nodup_top_change (hReached : m.Reached) (hDistinct : m.top.Nodup) (c : Change)
    (hRun : c.run m = .ok () m') : m'.top.Nodup := by
  cases c with
  | pushTop o =>
    rcases pushTop_eq_ok_iff.mp hRun with ⟨hNew, rfl⟩
    refine List.nodup_append.mpr ⟨hDistinct, List.pairwise_singleton _ o, ?_⟩
    rintro p hTop q hOne rfl
    exact hNew (List.mem_singleton.mp hOne ▸ hTop)
  | removeOp o =>
    rcases discard_eq_ok hRun with ⟨op, hRemove⟩
    rcases removeOp_cuts hReached.usersKept hReached.ownersKept hRemove with ⟨gone, hCuts⟩
    rcases hCuts.top with ⟨-, hTop⟩ | ⟨-, hTop⟩
    · exact hTop ▸ hDistinct
    · exact hTop ▸ hDistinct.erase o
  | newOp =>
    rcases discard_eq_ok hRun with ⟨o, hNew⟩
    rcases newOp_eq_ok hNew with ⟨-, -, -, values, blocks, regions, rfl, -⟩
    exact hDistinct
  | newPlaceholder =>
    rcases discard_eq_ok hRun with ⟨v, hNew⟩
    cases hNew
    exact hDistinct
  | newBlock r types =>
    rcases newBlock_eq_ok hRun with ⟨b, m₁, hNew, hPlace⟩
    rcases newDetachedBlock_run r types m with ⟨values, hDetached, -⟩
    cases hDetached.symm.trans hNew
    rcases placeBlock_eq_ok_iff.mp hPlace with ⟨info, region, -, -, -, rfl⟩
    exact hDistinct
  | newDetachedBlock r types =>
    rcases discard_eq_ok hRun with ⟨b, hNew⟩
    rcases newDetachedBlock_run r types m with ⟨values, hDetached, -⟩
    cases hDetached.symm.trans hNew
    exact hDistinct
  | placeBlock =>
    rcases placeBlock_eq_ok_iff.mp hRun with ⟨info, region, -, -, -, rfl⟩
    exact hDistinct
  | addBlockArg =>
    rcases discard_eq_ok hRun with ⟨v, hNew⟩
    rcases addBlockArg_eq_ok_iff.mp hNew with ⟨info, -, -, rfl⟩
    exact hDistinct
  | appendOp =>
    rcases appendOp_eq_ok_iff.mp hRun with ⟨info, region, os, -, -, -, -, -, rfl⟩
    exact hDistinct
  | removePlaceholder =>
    rcases removePlaceholder_eq_ok_iff.mp hRun with ⟨info, -, -, -, rfl⟩
    exact hDistinct
  | setAttr | setSpan | setOperand | replaceAllUses | replaceWithConstant =>
    have hSame : m.SameOwners m' := .change rfl hRun
    exact hSame.top ▸ hDistinct

theorem Reached.nodup_top (hReached : m.Reached) : m.top.Nodup := by
  induction hReached with
  | empty _ => exact List.nodup_nil
  | change c hReached hRun ih => exact nodup_top_change hReached ih c hRun
  | elsewhere _ _ _ _ _ ih => exact ih

----
-- Both kinds of places
----

/-
  An operation has at most one position in blocks and at most one
  at the module level. It is appended to a block if it is in none,
  and put to the module level if it is not there, wherever else
  it is.
-/
theorem Reached.one_place (hReached : m.Reached) :
    m.top.Nodup ∧ (∀ b os, m.blockOps b = .ok os → os.Nodup) ∧
      (∀ o b, m.parentBlock? o = some b ↔ ∃ os, m.blockOps b = .ok os ∧ o ∈ os) ∧
      (∀ o, (∃ m', pushTop o m = .ok () m') ↔ o ∉ m.top) ∧
      ∀ b o, (∃ m', appendOp b o m = .ok () m') ↔
        m.parentBlock? o = none ∧ ∃ os, m.blockOps b = .ok os := by
  refine ⟨hReached.nodup_top, fun b os hOps => (hReached.ownersKept.of_blockOps hOps).1,
    fun o b => hReached.parentBlock?_eq_some_iff, fun o => ?_, fun b o => ⟨?_, ?_⟩⟩
  · simp only [pushTop_eq_ok_iff, exists_and_left, exists_eq, and_true]
  · rintro ⟨m', hRun⟩
    rcases appendOp_eq_ok_iff.mp hRun with ⟨info, region, os, hNone, hInfo, hRegion, hOps, -, -⟩
    exact ⟨hNone, os, blockOps_eq_ok_iff.mpr ⟨info, region, hInfo, hRegion, hOps⟩⟩
  · rintro ⟨hNone, os, hOps⟩
    have hNew : o ∉ os := fun hIn =>
      nomatch hNone.symm.trans (hReached.parentBlock?_eq_some_iff.mpr ⟨os, hOps, hIn⟩)
    rcases blockOps_eq_ok_iff.mp hOps with ⟨info, region, hInfo, hRegion, hFound⟩
    exact ⟨_, appendOp_eq_ok_iff.mpr ⟨info, region, os, hNone, hInfo, hRegion, hFound, hNew, rfl⟩⟩

/- What is at the module level can still be appended, and what is in a block can not. -/
theorem Reached.one_place_function : ∃ m, (emptyAfter {}).after [.newOp .func [] [] {} 1 [],
      .newBlock ⟨0⟩ [], .newOp .unreachable [] [] {} 0 [], .appendOp ⟨0⟩ ⟨1⟩, .pushTop ⟨0⟩] =
        some m ∧ (∃ m', appendOp ⟨0⟩ ⟨0⟩ m = .ok () m') ∧ ¬ ∃ m', appendOp ⟨0⟩ ⟨1⟩ m = .ok () m' := by
  have hFound : ∃ m ∈ (emptyAfter {}).after [.newOp .func [] [] {} 1 [], .newBlock ⟨0⟩ [],
      .newOp .unreachable [] [] {} 0 [], .appendOp ⟨0⟩ ⟨1⟩, .pushTop ⟨0⟩], m.blockOps ⟨0⟩ = .ok [⟨1⟩] ∧
        m.parentBlock? ⟨0⟩ = none ∧ m.parentBlock? ⟨1⟩ ≠ none := by decide +kernel
  rcases hFound with ⟨m, hRun, hOps, hFree, hPlaced⟩
  have hReached : m.Reached := (Reached.empty {}).after hRun
  have hAppend := hReached.one_place.2.2.2.2
  exact ⟨m, hRun, (hAppend ⟨0⟩ ⟨0⟩).mpr ⟨hFree, _, hOps⟩,
    fun hAgain => hPlaced ((hAppend ⟨0⟩ ⟨1⟩).mp hAgain).1⟩

/- A function at the module level is appended to a block of itself. -/
theorem inside_itself : ∃ m, (emptyAfter {}).after [.newOp .func [] [] {} 1 [],
      .newBlock ⟨0⟩ [], .pushTop ⟨0⟩, .appendOp ⟨0⟩ ⟨0⟩] = some m ∧
    ⟨0⟩ ∈ m.top ∧ m.parentBlock? ⟨0⟩ = some ⟨0⟩ ∧ m.blockOwner ⟨0⟩ = .ok ⟨0⟩ := by decide +kernel

end FortranIR.Module
