import FortranIR.Proofs.Folding.Rounds

/-
  This file proves that the changes folding makes are
  reductions: a value takes the place of another one of its
  type, an operation becomes a constant, and an operation that
  is not used any more is removed.

  What is removed with an operation is all that is inside it.
  Results in there have no users, and arguments of blocks in
  there are not seen from anywhere else.

  Main declarations:
    * `Module.Reduces.of_kept`
    * `Module.Cuts.reduces`
-/

namespace FortranIR

open Operation

variable {o : OpId}
variable {region : RegionInfo} {op : Operation}

theorem Operation.redirect_of_unchanged (hSame : ∀ v ∈ op.operands, σ v = v) :
    op.redirect σ = op := by
  have hOperands : op.operands.map σ = op.operands :=
    (List.map_congr_left hSame).trans (List.map_id' op.operands)
  unfold redirect
  rw [hOperands]

namespace Module

variable {m m' : Module}

----
-- Changes that lose nothing
----

/-
  Operations are changed in place, and of values and blocks at
  most the lists of users.
-/
theorem Reduces.of_kept (hBefore : m.Reached) (hAfter : m'.Reached) (hTop : m'.top = m.top)
    (hPlaces : m'.places = m.places) (hRegions : m'.regions = m.regions) (hOps :
      ∀ o : OpId, m'.ops[o.index]? = none ∧ m.ops[o.index]? = none ∨
        ∃ op op', m'.ops[o.index]? = some op' ∧ m.ops[o.index]? = some op ∧ op.Reduced σ op')
    (hValues : ∀ k : Nat, (m'.values[k]?.map fun info => (info.type, info.defined)) =
          m.values[k]?.map fun info => (info.type, info.defined)) (hBlocks : ∀ k : Nat,
        (m'.blocks[k]?.map fun info => (info.region, info.args)) =
          m.blocks[k]?.map fun info => (info.region, info.args)) (hOperands :
      ∀ (v : ValueId) (info : ValueInfo), m.values[v.index]? = some info →
        info.defined ≠ .placeholder → ∃ other : ValueInfo, m.values[(σ v).index]? = some other ∧
          other.type = info.type ∧ other.defined ≠ .placeholder) : m.Reduces σ [] m' := by
  have hValueLeft : ∀ (k : Nat) (info : ValueInfo), m.values[k]? = some info →
        ∃ info' : ValueInfo, m'.values[k]? = some info' ∧
          info'.type = info.type ∧ info'.defined = info.defined := by
    intro k info hInfo
    rcases exists_of_map_eq (hValues k) hInfo with ⟨info', hInfo', hSame⟩
    exact ⟨info', hInfo', congrArg Prod.fst hSame, congrArg Prod.snd hSame⟩
  have hBlockLeft : ∀ (k : Nat) (info : BlockInfo), m.blocks[k]? = some info →
        ∃ info' : BlockInfo, m'.blocks[k]? = some info' := by
    intro k info hInfo
    rcases exists_of_map_eq (hBlocks k) hInfo with ⟨info', hInfo', -⟩
    exact ⟨info', hInfo'⟩
  exact
    { before := hBefore
      after := hAfter
      top := hTop
      ops := by
        intro o op' hOp'
        rcases hOps o with ⟨hNone, -⟩ | ⟨op, found, hFound, hOp, hReduced⟩
        · rw [hNone] at hOp'
          cases hOp'
        · rw [hFound, Option.some.injEq] at hOp'
          exact ⟨op, hOp, hOp' ▸ hReduced⟩
      opsLeft := by
        intro o op hOp _
        rcases hOps o with ⟨-, hNone⟩ | ⟨-, op', hOp', -, -⟩
        · rw [hNone] at hOp
          cases hOp
        · exact ⟨op', hOp'⟩
      places := fun o op' _ => by rw [hPlaces]
      values := by
        intro k info' hInfo'
        rcases exists_of_map_eq (hValues k).symm hInfo' with ⟨info, hInfo, hSame⟩
        exact ⟨info, hInfo, (congrArg Prod.fst hSame).symm, (congrArg Prod.snd hSame).symm⟩
      blocks := by
        intro k info' hInfo'
        rcases exists_of_map_eq (hBlocks k).symm hInfo' with ⟨info, hInfo, hSame⟩
        exact ⟨info, hInfo, (congrArg Prod.fst hSame).symm, (congrArg Prod.snd hSame).symm⟩
      regions := by
        intro k region hRegion
        rw [hRegions] at hRegion
        exact ⟨region, hRegion, by simp [trimmed, dropOps]⟩
      operandsLeft := by
        intro o op op' _ _ _ v _ info hInfo hDefined
        rcases hOperands v info hInfo hDefined with ⟨other, hOther, hType, hOtherDefined⟩
        rcases hValueLeft _ other hOther with ⟨info', hInfo', hType', hDefined'⟩
        exact ⟨info', hInfo', hType'.trans hType, hDefined' ▸ hOtherDefined⟩
      regionsLeft := fun o op' _ r _ region hRegion => ⟨region, hRegions ▸ hRegion⟩
      blocksLeft := fun b info hInfo _ _ => hBlockLeft _ info hInfo
      lastsLeft := by
        intro k region region' _ _ b os _ o _ op _ _
        exact List.not_mem_nil }

theorem SameType.value (hSame : m.SameType v w)
    (hInfo : m.values[v.index]? = some info) :
    ∃ other : ValueInfo, m.values[w.index]? = some other ∧ other.type = info.type := by
  rcases hSame with ⟨t, hSource, hTarget⟩
  rcases typeOf_eq_ok_iff.mp hSource with ⟨found, hFound, rfl⟩
  cases hInfo.symm.trans hFound
  exact typeOf_eq_ok_iff.mp hTarget

/- All operations have the other value in the place of one. -/
theorem replaceAllUses_redirects (hUsers : m.UsersKept)
    (hRun : replaceAllUses old new m = .ok () m') : ∃ ops values,
      m' = { m with ops := ops, values := values } ∧
      (∀ k : Nat, ops[k]? = m.ops[k]?.map (redirect (replaced old new))) ∧
      ∀ k : Nat, (values[k]?.map fun info => (info.type, info.defined)) =
        m.values[k]?.map fun info => (info.type, info.defined) := by
  by_cases hDistinct : old = new
  · rw [replaceAllUses, if_pos hDistinct] at hRun
    cases hRun
    refine ⟨m.ops, m.values, rfl, fun k => ?_, fun _ => rfl⟩
    have hSame : redirect (replaced old new) = id := by
      refine funext fun op => redirect_of_unchanged fun v _ => ?_
      unfold replaced
      split
      · rename_i hOld
        rw [hOld, hDistinct]
      · rfl
    rw [hSame, Option.map_id, id]
  · rcases replaceAllUses_eq_ok hDistinct hRun with
      ⟨info, ops, values, hInfo, -, rfl, hRedirects⟩
    exact ⟨ops, values, rfl, hUsers.redirects hInfo hRedirects, hRedirects.sources hInfo⟩

/- A value takes the place of another one of the same type. -/
theorem replaceAllUses_reduces (hReached : m.Reached)
    (hType : m.SameType old new)
    (hNew : ∀ info : ValueInfo, m.values[new.index]? = some info → info.defined ≠ .placeholder)
    (hRun : replaceAllUses old new m = .ok () m') : m.Reduces (replaced old new) [] m' := by
  have hAfter : m'.Reached := hReached.change (.replaceAllUses old new) hRun
  rcases replaceAllUses_redirects hReached.usersKept hRun with ⟨ops, values, rfl, hOps, hValues⟩
  refine .of_kept hReached hAfter rfl rfl rfl (fun o => ?_) hValues (fun _ => rfl) ?_
  · cases hOp : m.ops[o.index]? with
    | none => exact .inl ⟨by simp only [hOps, hOp, Option.map_none], rfl⟩
    | some op =>
      exact .inr ⟨op, _, by simp only [hOps, hOp, Option.map_some], rfl, .inl rfl⟩
  · intro v info hInfo hDefined
    unfold replaced
    split
    · rename_i hSame
      subst hSame
      rcases hType.value hInfo with ⟨other, hOther, hEq⟩
      exact ⟨other, hOther, hEq, hNew other hOther⟩
    · exact ⟨info, hInfo, rfl, hDefined⟩

/- An arithmetic operation becomes a constant. -/
theorem replaceWithConstant_reduces (hReached : m.Reached) {value : Attr}
    (hOp : m.ops[o.index]? = some op) (hKind : op.kind.isArithmetic = true)
    (hRun : replaceWithConstant o value m = .ok () m') :
    m.Reduces (fun v => v) [] m' ∧ m'.ops[o.index]? = some (op.settle value) ∧
      ∀ p : OpId, p ≠ o → m'.ops[p.index]? = m.ops[p.index]? := by
  have hAfter : m'.Reached := hReached.change (.replaceWithConstant o value) hRun
  rcases replaceWithConstant_eq_ok hRun with ⟨found, m₁, hFound, -, hRegions, hDrop, rfl⟩
  cases hOp.symm.trans hFound
  rcases dropUses_eq_ok hDrop with ⟨-, values, blocks, -, rfl, hValues, hBlocks⟩
  have hHere : (m.ops.modify o.index (settle value))[o.index]? =
        some (op.settle value) := by rw [getElem?_modify_nat, if_pos rfl, hOp, Option.map_some]
  have hThere : ∀ p : OpId, p ≠ o → (m.ops.modify o.index (settle value))[p.index]? =
        m.ops[p.index]? := by
    intro p hOther
    rw [getElem?_modify_nat, if_neg]
    exact fun hSame => hOther (OpId.ext hSame.symm)
  refine ⟨.of_kept hReached hAfter rfl rfl rfl (fun p => ?_) (fun k => ?_) (fun k => ?_)
    (fun v info hInfo hDefined => ⟨info, hInfo, rfl, hDefined⟩), hHere, hThere⟩
  · by_cases hSame : p = o
    · subst hSame
      exact .inr ⟨op, _, hHere, hOp, .inr ⟨hKind, hRegions, value, rfl⟩⟩
    · cases hEntry : m.ops[p.index]? with
      | none => exact .inl ⟨(hThere p hSame).trans hEntry, rfl⟩
      | some other =>
        exact .inr ⟨other, other, (hThere p hSame).trans hEntry, rfl,
          .inl (redirect_of_unchanged fun _ _ => rfl).symm⟩
  · simp only [hValues k, Option.map_map]
    rfl
  · simp only [hBlocks k, Option.map_map]
    rfl

----
-- Removal
----

namespace Cuts

/-
  The operands of operations that are left stay: results that
  are lost are not used, and the arguments of blocks that are
  lost are seen from inside only.
-/
theorem operand_left (hCuts : m.Cuts o gone m') (hOwners : m.OwnersKept)
    (hDefinitions : m.DefinitionsKept) (hScoped : m.Scoped) (hLeft : u ∉ gone)
    (hLive : m.Live u) (hOp : m.ops[u.index]? = some op) (hOperand : v ∈ op.operands)
    (hInfo : m.values[v.index]? = some info) : ¬ m.OwnsValue (· ∈ gone) v := by
  rintro (⟨q, other, hGone, hOther, hIn⟩ | ⟨b, block, hOwns, hBlock, hIn⟩)
  · exact hCuts.unused q other hGone hOther v hIn u op hLeft hOp hOperand
  · rcases hDefinitions.arg_source hBlock hIn hInfo with ⟨i, hHere⟩
    have hSeen := hScoped u op hLive hOp v hOperand info hInfo
    rw [hHere] at hSeen
    have hLost := hOwners.ownsRegion_of_ownsBlock hBlock hOwns
    rcases hOwns with ⟨r, region, -, hRegion, hListed⟩
    rcases List.mem_map.mp hListed with ⟨⟨c, os⟩, hMember, rfl⟩
    rcases ((hOwners.layouts _ region hRegion).2 c os hMember).block with ⟨found, hFound, hHome⟩
    cases hBlock.symm.trans hFound
    rw [hHome] at hLost
    refine hLeft ((hSeen region.parent ?_).closed (fun _ _ => hCuts.closed)
      ((hOwners.ownsRegion_iff hRegion).mp hLost))
    exact blockOwner_eq_ok_iff.mpr ⟨block, region, hBlock, hHome ▸ hRegion, rfl⟩

theorem reduces (hCuts : m.Cuts o gone m') (hReached : m.Reached) (hReached' : m'.Reached)
    (hScoped : m.Scoped) (hPlace : m.places[o.index]? = some home)
    (hOp : m.ops[o.index]? = some op) (hKind : op.kind.isTerminator = false) :
    m.Reduces (fun v => v) gone m' where
  before := hReached
  after := hReached'
  top := by
    rcases hCuts.top with ⟨-, hSame⟩ | ⟨hNone, -⟩
    · exact hSame
    · rw [hPlace] at hNone
      cases hNone
  ops := by
    intro p op' hOp'
    exact ⟨op', (hCuts.ops.some_iff.mp hOp').1, .inl
      (redirect_of_unchanged fun _ _ => rfl).symm⟩
  opsLeft := by
    intro p found hFound hLeft
    exact ⟨found, hCuts.ops.some_iff.mpr ⟨hFound, hLeft⟩⟩
  places := fun p op' hOp' => (hCuts.places p.index).2 (hCuts.ops.some_iff.mp hOp').2
  values := by
    intro k info' hInfo'
    rcases (hCuts.values k info').mp hInfo' with ⟨info, hInfo, -, rfl⟩
    exact ⟨info, hInfo, rfl, rfl⟩
  blocks := by
    intro k info' hInfo'
    rcases (hCuts.blocks k info').mp hInfo' with ⟨info, hInfo, -, rfl⟩
    exact ⟨info, hInfo, rfl, rfl⟩
  regions := by
    intro k region' hRegion'
    rcases (hCuts.regions k region').mp hRegion' with ⟨region, hRegion, -, rfl⟩
    exact ⟨region, hRegion, rfl⟩
  operandsLeft := by
    intro u found op' hLive hFound hOp' v hOperand info hInfo hDefined
    have hLeft := hCuts.operand_left hReached.ownersKept hReached.definitionsKept hScoped
      (hCuts.ops.some_iff.mp hOp').2 hLive hFound hOperand hInfo
    exact ⟨_, (hCuts.values _ _).mpr ⟨info, hInfo, hLeft, rfl⟩, rfl, hDefined⟩
  regionsLeft := fun p op' hOp' r hListed region hRegion =>
    ⟨_, hCuts.region_left hReached.ownersKept hOp' hListed hRegion⟩
  blocksLeft := by
    intro b info hInfo region' hRegion'
    rcases (hCuts.regions _ region').mp hRegion' with ⟨-, -, hLeft, -⟩
    exact ⟨_, (hCuts.blocks _ _).mpr ⟨info, hInfo,
      fun hOwns => hLeft (hReached.ownersKept.ownsRegion_of_ownsBlock hInfo hOwns), rfl⟩⟩
  lastsLeft := by
    intro k region region' hRegion hRegion' b os hMember p hIn found hFound hTerminator hGone
    rcases (hCuts.regions k region').mp hRegion' with ⟨-, -, hLeft, -⟩
    have hRoot := hReached.ownersKept.eq_root_of_listed hCuts.nested hRegion hLeft hMember hIn hGone
    subst hRoot
    cases hOp.symm.trans hFound
    rw [hKind] at hTerminator
    cases hTerminator

end Cuts

end Module

end FortranIR
