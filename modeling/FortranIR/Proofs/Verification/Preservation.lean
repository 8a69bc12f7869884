import FortranIR.Proofs.Verification.Structure
import FortranIR.Proofs.Verification.Symbols

/-
  This file proves that a module still passes its verification
  after a reduction.

  Most checks of an operation have the same answer as before.
  Where an operation is asked about what is around it or nested
  in it, enough of that is left.

  Main declarations:
    * `Module.FitsResults`
    * `Module.Reduces.verified`
-/

namespace FortranIR

open Operation Segments

variable {parts : LoopParts} {σ : ValueId → ValueId}
variable {b : BlockId} {o : OpId}
variable {op : Operation}

namespace Module

variable {m m' : Module} {records : RecordTable}

namespace Reduces

----
-- Blocks of an operation
----

section

variable (hReduces : m.Reduces σ gone m') (hShape : SameShape σ m m' o op)
variable (hListed : r ∈ op.regions) (hBlocks : m.regionBlocks r = .ok bs) (hBlock : b ∈ bs)
include hReduces hShape hListed hBlocks hBlock

theorem region_of_block : ∃ info region', m.blocks[b.index]? = some info ∧
      m'.regions[info.region.index]? = some region' := by
  rcases regionBlocks_eq_ok_iff.mp hBlocks with ⟨region, hRegion, rfl⟩
  rcases List.mem_map.mp hBlock with ⟨⟨c, os⟩, hMember, rfl⟩
  rcases ((hReduces.before.ownersKept.layouts _ region hRegion).2 c os hMember).block with ⟨info, hInfo, hHome⟩
  rcases hReduces.regionsLeft o _ (op_eq_ok_iff.mp hShape.after) r hListed region hRegion with
    ⟨region', hRegion'⟩
  refine ⟨info, region', hInfo, ?_⟩
  rw [hHome]
  exact hRegion'

/- The blocks of an operation keep their arguments. -/
theorem args_left (hInfo : m.block b = .ok info) :
    ∃ info', m'.block b = .ok info' ∧ info'.args = info.args ∧
      ∀ v ∈ info.args, m'.typeOf v = m.typeOf v := by
  rcases hReduces.region_of_block hShape hListed hBlocks hBlock with
    ⟨found, region', hFound, hRegion'⟩
  cases hFound.symm.trans (block_eq_ok_iff.mp hInfo)
  rcases hReduces.block_left hFound hRegion' with ⟨info', hInfo', -, hArgs, hTypes⟩
  exact ⟨info', block_eq_ok_iff.mpr hInfo', hArgs, hTypes⟩

end

section

variable (hReduces : m.Reduces σ gone m') (hShape : SameShape σ m m' o op)
include hReduces hShape

theorem regionBlocks_left (hListed : r ∈ op.regions) : m'.regionBlocks r = m.regionBlocks r :=
  hReduces.regionBlocks_eq (op_eq_ok_iff.mp hShape.after) hListed

theorem firstBlock?_left {region : RegionInfo} (hListed : r ∈ op.regions)
    (hRegion : m.region r = .ok region) :
    ∃ region', m'.region r = .ok region' ∧ region'.firstBlock? = region.firstBlock? ∧
      m.regionBlocks r = .ok region.blocks := by
  have hEntry := region_eq_ok_iff.mp hRegion
  rcases hReduces.regionsLeft o _ (op_eq_ok_iff.mp hShape.after) r hListed region hEntry with
    ⟨region', hRegion'⟩
  refine ⟨region', region_eq_ok_iff.mpr hRegion', ?_,
    regionBlocks_eq_ok_iff.mpr ⟨region, hEntry, rfl⟩⟩
  unfold RegionInfo.firstBlock?
  rw [hReduces.region_left hEntry hRegion', blocks_trimmed]

theorem verifyTerminated_left (hAnswers : Answers (m.verifyTerminated o) ()) :
    Answers (m'.verifyTerminated o) () := by
  rw [verifyTerminated_answers hShape.before] at hAnswers
  rw [verifyTerminated_answers hShape.after]
  intro r hListed
  rcases hAnswers r hListed with ⟨bs, hBlocks, hLasts⟩
  refine ⟨bs, (hReduces.regionBlocks_left hShape hListed).trans hBlocks, fun b hBlock => ?_⟩
  rcases hLasts b hBlock with ⟨last, hLast⟩
  rcases hReduces.region_of_block hShape hListed hBlocks hBlock with
    ⟨info, region', hInfo, hRegion'⟩
  exact ⟨last, (hReduces.terminator?_left hInfo hRegion' hLast).1⟩

----
-- Conditionals and loops
----

theorem verifyIf_left (hAnswers : Answers (m.verifyIf o) ()) : Answers (m'.verifyIf o) () := by
  refine hShape.look (fun hAnswers => ?_) hAnswers
  simp only [pure_bind] at hAnswers
  simp only [pure_bind, hShape.ensure_eq,
    redirect_operands, redirect_regions, redirect_results]
  split at hAnswers
  · rename_i c hOperands
    have hOperand : c ∈ op.operands := by simp [hOperands]
    simp only [hOperands, List.map_cons, List.map_nil, hShape.checkedType_eq hOperand]
    refine answers_bind_imp (fun _ _ hRest => ?_) hAnswers
    refine answers_bind_imp (fun _ _ hRest => ?_) hRest
    split at hRest
    · rename_i thenRegion elseRegion hRegions
      have hThen : thenRegion ∈ op.regions := by simp [hRegions]
      have hElse : elseRegion ∈ op.regions := by simp [hRegions]
      simp only [hReduces.regionBlocks_left hShape hThen, hReduces.regionBlocks_left hShape hElse]
      simp only [answers_bind, answers_lift, answers_forM, answers_ensure] at hRest ⊢
      rcases hRest with ⟨thenBlocks, hThenBlocks, elseBlocks, hElseBlocks, _, hOne,
          _, hAtMost, _, hNeeded, _, hArgs, hTerminated⟩
      refine ⟨thenBlocks, hThenBlocks, elseBlocks, hElseBlocks, (),
        hOne, (), hAtMost, (), hNeeded, (), fun b hBlock => ?_,
        hReduces.verifyTerminated_left hShape hTerminated⟩
      rcases hArgs b hBlock with ⟨info, hInfo, hNone⟩
      rcases List.mem_append.mp hBlock with hIn | hIn
      · rcases hReduces.args_left hShape hThen hThenBlocks hIn hInfo with
          ⟨info', hInfo', hSame, -⟩
        exact ⟨info', hInfo', hSame ▸ hNone⟩
      · rcases hReduces.args_left hShape hElse hElseBlocks hIn hInfo with
          ⟨info', hInfo', hSame, -⟩
        exact ⟨info', hInfo', hSame ▸ hNone⟩
    · exact absurd hRest not_answers_reject
  · rcases answers_bind.mp hAnswers with ⟨_, hCondition, -⟩
    cases answers_ensure.mp hCondition

theorem loopBody_left (hBody : m.loopBody op = .ok (body, args)) :
    m'.loopBody (op.redirect σ) = .ok (body, args) ∧ ∀ v ∈ args, m'.typeOf v = m.typeOf v := by
  unfold loopBody at hBody ⊢
  rw [redirect_regions]
  rcases hRegions : op.regions with _ | ⟨r, rest⟩
  · rw [hRegions] at hBody
    cases hBody
    exact ⟨rfl, nofun⟩
  · have hListed : r ∈ op.regions := by simp [hRegions]
    simp only [hRegions] at hBody ⊢
    rcases bind_eq_ok_iff.mp hBody with ⟨region, hRegion, hRest⟩
    rcases hReduces.firstBlock?_left hShape hListed hRegion with
      ⟨region', hRegion', hFirst, hBlocks⟩
    rw [bind_eq_ok_iff]
    cases hHead : region.firstBlock? with
    | none =>
      rw [hHead] at hRest hFirst
      cases hRest
      exact ⟨⟨region', hRegion', by rw [hFirst]; rfl⟩, nofun⟩
    | some b =>
      rw [hHead] at hRest hFirst
      rcases bind_eq_ok_iff.mp hRest with ⟨info, hInfo, hDone⟩
      cases hDone
      rcases hReduces.args_left hShape hListed hBlocks (List.mem_of_head? hHead) hInfo with
        ⟨info', hInfo', hArgs, hTypes⟩
      refine ⟨⟨region', hRegion', ?_⟩, hTypes⟩
      rw [hFirst]
      exact bind_eq_ok_iff.mpr ⟨info', hInfo', by rw [hArgs]; rfl⟩

omit hReduces hShape in
theorem loopParts_of_loopBody (hOp : m.op o = .ok op) (hKind : op.kind.isLoop = true) (hOperands :
      op.operands = parts.lower :: parts.upper :: parts.step ::
        (parts.iterateIn.toList ++ parts.inits))
    (hWhile : parts.iterateIn.isSome ↔ op.kind = .iterateWhile)
    (hBody : m.loopBody op = .ok (parts.body, parts.args)) : m.loopParts o = .ok parts := by
  unfold loopParts
  rw [hOp, ok_bind]
  rcases parts with ⟨lower, upper, step, iterateIn, inits, body, args⟩
  rcases OpKind.isLoop_iff.mp hKind with hDo | hIterate
  · rcases iterateIn with _ | ok
    · rw [hOperands, hDo]
      exact bind_eq_ok_iff.mpr ⟨_, hBody, rfl⟩
    · cases hDo.symm.trans (hWhile.mp rfl)
  · rcases iterateIn with _ | ok
    · cases hWhile.mpr hIterate
    · rw [hOperands, hIterate]
      exact bind_eq_ok_iff.mpr ⟨_, hBody, rfl⟩

/- A loop keeps its parts but for its operands. -/
theorem loopParts_left (hKind : op.kind.isLoop = true)
    (hParts : m.loopParts o = .ok parts) :
    m'.loopParts o = .ok (parts.redirect σ) ∧ ∀ v ∈ parts.args, m'.typeOf v = m.typeOf v := by
  rcases loopParts_eq_ok hShape.before hParts with ⟨hOperands, hWhile, hBody⟩
  rcases hReduces.loopBody_left hShape hBody with ⟨hBody', hTypes⟩
  refine ⟨loopParts_of_loopBody hShape.after hKind ?_ ?_ hBody', hTypes⟩
  · rw [redirect_operands, hOperands]
    rcases parts with ⟨lower, upper, step, _ | ok, inits, body, args⟩
    · rfl
    · rfl
  · rw [redirect_kind, ← hWhile]
    simp [LoopParts.redirect]

theorem verifyLoop_left (hKind : op.kind.isLoop = true)
    (hAnswers : Answers (verifyLoop records m o) ()) : Answers (verifyLoop records m' o) () := by
  refine hShape.look (fun hAnswers => ?_) hAnswers
  simp only [pure_bind, hShape.ensure_eq, redirect_operands, redirect_regions,
    redirect_results, redirect_kind, List.length_map]
  refine answers_bind_imp (fun _ _ hRest => ?_) hAnswers
  refine answers_bind_imp (fun _ _ hRest => ?_) hRest
  refine answers_bind_imp (fun r hRegion hRest => ?_) hRest
  have hListed : r ∈ op.regions :=
    List.mem_of_getElem? (orElse_eq_ok_iff.mp (answers_lift.mp hRegion))
  rw [hReduces.regionBlocks_left hShape hListed]
  iterate 2 refine answers_bind_imp (fun _ _ hRest => ?_) hRest
  rcases answers_bind.mp hRest with ⟨parts, hParts, hRest⟩
  rcases hReduces.loopParts_left hShape hKind
      (answers_lift.mp hParts) with ⟨hParts', hTypes⟩
  refine answers_bind.mpr ⟨_, answers_lift.mpr hParts', ?_⟩
  rcases loopParts_eq_ok hShape.before (answers_lift.mp hParts) with ⟨hOperands, -, -⟩
  have hLimits : verifyBounds records m' o ([parts.lower, parts.upper, parts.step].map σ) =
        verifyBounds records m o [parts.lower, parts.upper, parts.step] :=
    hShape.verifyBounds_eq (by simp [hOperands])
  have hIndex := SameShape.hasType_eq (v := parts.args.head?)
    (fun w hHead => hTypes w (List.mem_of_head? hHead)) .index
  -- the values that the loop carries, and the ends of its block
  have hCarried : ∀ n : Nat, Answers (do
        m.verifyCarried o (op.results.drop n) parts.inits parts.carried
        m.verifyTerminated o) () → Answers (do
        m'.verifyCarried o (op.results.drop n) (parts.inits.map σ) parts.carried
        m'.verifyTerminated o) () := by
    intro n hAgree
    have hSame : m'.verifyCarried o (op.results.drop n) (parts.inits.map σ) parts.carried =
          m.verifyCarried o (op.results.drop n) parts.inits parts.carried :=
      hShape.verifyCarried_eq (fun v hIn => List.mem_of_mem_drop hIn)
        (fun v hIn => by simp [hOperands, hIn]) (fun v hIn => hTypes v (List.mem_of_mem_drop hIn))
    rw [hSame]
    refine answers_bind_imp (fun _ _ hTerminated => ?_) hAgree
    exact hReduces.verifyTerminated_left hShape hTerminated
  rw [LoopParts.redirect_carried]
  simp only [LoopParts.redirect, List.map_cons, List.map_nil] at hLimits ⊢
  rw [hLimits, hIndex]
  iterate 3 refine answers_bind_imp (fun _ _ hRest => ?_) hRest
  cases hWhile : parts.iterateIn with
  | none =>
    simp only [hWhile, Option.map_none, List.length_map] at hRest ⊢
    refine answers_bind_imp (fun _ _ hRest => ?_) hRest
    exact hCarried 0 hRest
  | some ok =>
    have hOk : ok ∈ op.operands := by simp [hOperands, hWhile]
    have hSecond := SameShape.hasType_eq (v := parts.args[1]?)
      (fun w hAt => hTypes w (List.mem_of_getElem? hAt)) .i1
    have hFirst := SameShape.hasType_eq (v := op.results.head?)
      (fun w hHead => hShape.results w (List.mem_of_head? hHead)) .i1
    simp only [hWhile, Option.map_some, List.length_map,
      hShape.checkedType_eq hOk, hSecond, hFirst] at hRest ⊢
    iterate 7 refine answers_bind_imp (fun _ _ hRest => ?_) hRest
    exact hCarried 1 hRest

----
-- Ends of blocks
----

/- What is around an operation is looked up. -/
theorem parent_answers {f g : Option OpId → Check Unit}
    (hNone : Answers (f none) () → Answers (g none) ())
    (hSome : ∀ p parent, m.op p = .ok parent → m'.op p = .ok (parent.redirect σ) →
      Answers (f (some p)) () → Answers (g (some p)) ())
    (hAnswers : Answers (liftM (m.parentOp? o) >>= f) ()) :
    Answers (liftM (m'.parentOp? o) >>= g) () := by
  have hEntry := op_eq_ok_iff.mp hShape.after
  rw [hReduces.parentOp?_eq hEntry]
  refine answers_bind_imp (fun parent? hParent hRest => ?_) hAnswers
  cases parent? with
  | none => exact hNone hRest
  | some p =>
    rcases hReduces.parent_left hEntry (answers_lift.mp hParent) with
      ⟨parent, hOld, hNew⟩
    exact hSome p parent (op_eq_ok_iff.mpr hOld) (op_eq_ok_iff.mpr hNew) hRest

theorem verifyResult_left (hAnswers : Answers (m.verifyResult o) ()) :
    Answers (m'.verifyResult o) () := by
  refine hReduces.parent_answers hShape (absurd · not_answers_reject)
    (fun p parent hOld hNew => answers_checkedOp_imp hOld hNew fun hRest => ?_) hAnswers
  have hTypes : ∀ v ∈ parent.results, m'.typeOf v = m.typeOf v :=
    fun v hIn => hReduces.results_eq (op_eq_ok_iff.mp hNew) hIn
  have hResults : m'.checkedTypes parent.results = m.checkedTypes parent.results := by
    unfold checkedTypes
    rw [typesOf_eq hTypes]
  have hOperands := hShape.operandTypes_eq fun v hIn => hIn
  simp only [hShape.checkedOp_before, pure_bind] at hRest
  simp only [hShape.checkedOp_after, pure_bind, hShape.ensure_eq, redirect_kind,
    redirect_results, redirect_operands, hOperands, hResults]
  exact hRest

theorem verifyReturn_left (hAnswers : Answers (m.verifyReturn o) ()) :
    Answers (m'.verifyReturn o) () := by
  have hEntry := op_eq_ok_iff.mp hShape.after
  rcases verifyReturn_answers hShape.before hAnswers with
    ⟨f, func, t, hParent, hFunc, hKind, hType, hTypes⟩
  rcases hReduces.parent_left hEntry hParent with ⟨found, hOld, hNew⟩
  cases hOld.symm.trans (op_eq_ok_iff.mp hFunc)
  have hOperands := hShape.operandTypes_eq fun v hIn => hIn
  have hAttr : Answers (m'.typeAttr f "type") t :=
    answers_typeAttr.mpr ⟨_, op_eq_ok_iff.mpr hNew, hType⟩
  unfold verifyReturn
  rw [hReduces.parentOp?_eq hEntry, hParent]
  refine answers_bind.mpr ⟨some f, answers_lift.mpr rfl, ?_⟩
  simp only [checkedOp_eq (op_eq_ok_iff.mpr hNew), pure_bind,
    redirect_kind, hKind, if_true]
  refine answers_bind.mpr ⟨t, hAttr, ?_⟩
  simp only [hShape.checkedOp_after, pure_bind, hShape.ensure_eq,
    redirect_operands, hOperands]
  exact answers_bind.mpr ⟨_, answers_checkedTypes.mpr hTypes,
    answers_ensure.mpr (by simp [Ty.returned])⟩

theorem verifyHasValue_left (hAnswers : Answers (m.verifyHasValue o) ()) :
    Answers (m'.verifyHasValue o) () := by
  unfold verifyHasValue at hAnswers ⊢
  simp only [hShape.verifyCounts_eq, hShape.ensure_eq]
  refine answers_bind_imp (fun _ _ => ?_) hAnswers
  exact hReduces.parent_answers hShape (fun hRest => hRest)
    fun p parent hOld hNew => answers_checkedOp_imp hOld hNew fun hRest => hRest

theorem verifyDtEntry_left (hAnswers : Answers (m.verifyDtEntry o) ()) :
    Answers (m'.verifyDtEntry o) () := by
  refine hShape.look (fun hAnswers => ?_) hAnswers
  simp only [hShape.ensure_eq, redirect_attr?]
  refine answers_bind_imp (fun _ _ => answers_bind_imp fun _ _ => ?_) hAnswers
  exact hReduces.parent_answers hShape (fun hRest => hRest)
    fun p parent hOld hNew => answers_checkedOp_imp hOld hNew fun hRest => hRest

----
-- Branches
----

omit hReduces hShape in
theorem answers_verifySuccessor (hPasses : m.PassesTo o dest args) :
    Answers (m.verifySuccessor o dest args) () := by
  rcases hPasses with ⟨home, here, info, types, hPlace, hHere, hInfo, hRegion, hPlaced,
      hParams, hArgs⟩
  unfold verifySuccessor
  simp only [hPlace, answers_bind, answers_lift, answers_ensure,
    answers_checkedTypes, answers_pure, beq_iff_eq]
  exact ⟨here, hHere, _, rfl, info, hInfo, (), by rw [hRegion], true,
    hPlaced, (), rfl, types, hParams, types, hArgs, rfl⟩

/- A branch still passes its arguments to a block of its region. -/
theorem passesTo_left (hOperands : ∀ v ∈ args, v ∈ op.operands) (hPasses : m.PassesTo o dest args) :
    m'.PassesTo o dest (args.map σ) := by
  rcases hPasses with ⟨home, here, info, types, hPlace, hHere, hInfo, hRegion, hPlaced,
      hParams, hArgs⟩
  have hEntry := op_eq_ok_iff.mp hShape.after
  rw [block_eq_ok_iff] at hHere hInfo
  rcases hReduces.place_left hEntry hPlace with ⟨found, region, hFound, hOld, hNew⟩
  cases hHere.symm.trans hFound
  rcases hReduces.block_left hHere hNew with ⟨here', hHere', hHome, -⟩
  rcases hReduces.block_left hInfo (hRegion ▸ hNew) with ⟨info', hInfo', hSame, hSameArgs, hTypes⟩
  refine ⟨home, here', info', types, ?_, block_eq_ok_iff.mpr hHere',
    block_eq_ok_iff.mpr hInfo', by rw [hHome, hSame, hRegion], ?_, ?_, ?_⟩
  · exact (hReduces.places o _ hEntry).trans hPlace
  · rcases bind_eq_ok_iff.mp hPlaced with ⟨target, hTarget, hRest⟩
    cases hInfo.symm.trans (block_eq_ok_iff.mp hTarget)
    rcases bind_eq_ok_iff.mp hRest with ⟨home', hHome', hDone⟩
    rw [region_eq_ok_iff, ← hRegion, hOld, Option.some.injEq] at hHome'
    subst hHome'
    refine bind_eq_ok_iff.mpr ⟨info', block_eq_ok_iff.mpr hInfo', bind_eq_ok_iff.mpr
        ⟨trimmed gone region, region_eq_ok_iff.mpr ?_, ?_⟩⟩
    · rw [hSame, ← hRegion]
      exact hNew
    · rw [blocks_trimmed]
      exact hDone
  · rw [hSameArgs, typesOf_eq hTypes]
    exact hParams
  · rw [typesOf_map_eq fun v hIn => hShape.operands v (hOperands v hIn)]
    exact hArgs

theorem verifySuccessor_left (hOperands : ∀ v ∈ args, v ∈ op.operands)
    (hAnswers : Answers (m.verifySuccessor o dest args) ()) :
    Answers (m'.verifySuccessor o dest (args.map σ)) () :=
  answers_verifySuccessor (hReduces.passesTo_left hShape hOperands
      (verifySuccessor_answers hAnswers))

theorem verifySuccessors_left
    (hOperands : ∀ vs ∈ lists, ∀ v ∈ vs, v ∈ op.operands)
    (hAnswers : Answers (m.verifySuccessors o dests lists) ()) :
    Answers (m'.verifySuccessors o dests (lists.map (List.map σ))) () := by
  induction dests generalizing lists with
  | nil => exact hAnswers
  | cons b bs ih =>
    rcases lists with _ | ⟨vs, rest⟩
    · exact hAnswers
    · rcases List.forall_mem_cons.mp hOperands with ⟨hFirst, hRest⟩
      rcases answers_bind.mp hAnswers with ⟨_, hHere, hThere⟩
      exact answers_bind.mpr ⟨(), hReduces.verifySuccessor_left hShape hFirst
          hHere, ih hRest hThere⟩

theorem verifyBr_left (hAnswers : Answers (m.verifyBr o) ()) : Answers (m'.verifyBr o) () := by
  refine hShape.look (fun hAnswers => ?_) hAnswers
  rw [redirect_successors]
  split at hAnswers
  · exact hReduces.verifySuccessor_left hShape (fun v hIn => hIn) hAnswers
  · exact absurd hAnswers not_answers_reject

omit hReduces in
theorem successorOperands_left (hKind : op.kind = .condBr)
    (hArgs : m.successorOperands o i = .ok args) :
    m'.successorOperands o i = .ok (args.map σ) ∧ ∀ v ∈ args, v ∈ op.operands := by
  unfold successorOperands at hArgs ⊢
  rw [hShape.before, ok_bind, hKind] at hArgs
  rw [hShape.after, ok_bind, redirect_kind, hKind, redirect_operands]
  cases hOperands : op.operands with
  | nil =>
    simp only [hOperands] at hArgs
    cases hArgs
  | cons cond rest =>
    simp only [hOperands, List.map_cons] at hArgs ⊢
    rcases bind_eq_ok_iff.mp hArgs with ⟨found, hSplit, hRest⟩
    cases found with
    | error e => cases hRest
    | ok targets =>
      refine ⟨bind_eq_ok_iff.mpr ⟨_, split_map hSplit,
          segment_map hRest⟩, fun v hIn => ?_⟩
      rcases split_eq_ok_iff.mp hSplit with ⟨rfl, -⟩
      exact .tail cond (mem_items
        (List.mem_of_getElem? (segment_eq_ok_iff.mp hRest)) hIn)

theorem verifyCondBr_left (hKind : op.kind = .condBr)
    (hAnswers : Answers (m.verifyCondBr o) ()) : Answers (m'.verifyCondBr o) () := by
  have hCondition := SameShape.hasType_map_eq (v := op.operands.head?)
    (fun w hHead => hShape.operands w (List.mem_of_head? hHead)) .i1
  refine hShape.look (fun hAnswers => ?_) hAnswers
  simp only [redirect_successors, redirect_operands, List.head?_map, hCondition,
    branchSizes_redirect, List.length_map, hShape.ensure_eq]
  refine answers_bind_imp (fun _ _ hRest => ?_) hAnswers
  iterate 4 refine answers_bind_imp (fun _ _ hRest => ?_) hRest
  rw [answers_forM] at hRest ⊢
  intro successor hMember
  rcases answers_bind.mp (hRest successor hMember) with ⟨args, hArgs, hPasses⟩
  rcases successorOperands_left hShape hKind (answers_lift.mp hArgs) with ⟨hArgs', hOperands⟩
  exact answers_bind.mpr ⟨_, answers_lift.mpr hArgs',
    hReduces.verifySuccessor_left hShape hOperands hPasses⟩

omit hReduces in
theorem trySelectParts_left {parts : SelectParts}
    (hParts : m.trySelectParts o = .ok (.ok parts)) :
    m'.trySelectParts o = .ok (.ok (parts.redirect σ)) := by
  rcases (trySelectParts_eq_ok_iff hShape.before).mp hParts with ⟨hKind, hAnswers⟩
  exact (trySelectParts_eq_ok_iff hShape.after).mpr ⟨hKind, selectParts_redirect hAnswers⟩

theorem verifySelect_left (hKind : op.kind.isSelect = true)
    (hAnswers : Answers (verifySelect records m o) ()) :
    Answers (verifySelect records m' o) () := by
  refine hShape.look (fun hAnswers => ?_) hAnswers
  rw [redirect_kind]
  rcases answers_bind.mp hAnswers with ⟨found, hParts, hRest⟩
  cases found with
  | error complaint => exact absurd hRest not_answers_reject
  | ok parts =>
    have hFound := answers_lift.mp hParts
    refine answers_bind.mpr ⟨_, answers_lift.mpr (trySelectParts_left hShape hFound), ?_⟩
    rcases selectParts_answers ((trySelectParts_eq_ok_iff hShape.before).mp hFound).2 with
      ⟨hOperands, -⟩
    have hSelector : parts.selector ∈ op.operands := by simp [hOperands]
    have hTargets : ∀ vs ∈ parts.targets.toLists, ∀ v ∈ vs, v ∈ op.operands := by
      intro vs hList v hIn
      rw [hOperands]
      exact .tail _ (List.mem_append_right _ (List.mem_flatten.mpr ⟨vs, hList, hIn⟩))
    have hSuccessors : Answers (m.verifySuccessors o parts.dests parts.targets.toLists) () →
        Answers (m'.verifySuccessors o parts.dests (parts.targets.toLists.map (List.map σ))) () :=
      hReduces.verifySuccessors_left hShape hTargets
    simp only [SelectParts.redirect, hShape.checkedType_eq hSelector,
      toLists_map, hShape.verifyCaseOperands_eq, hShape.ensure_eq, isEmpty_map]
    rcases OpKind.isSelect_iff.mp hKind with hCase | hCase | hCase | hCase
    all_goals
      simp only [hCase, ne_eq, reduceCtorEq, not_true_eq_false,
        not_false_eq_true, if_true, if_false] at hRest ⊢
      repeat refine answers_bind_imp (fun _ _ hRest => ?_) hRest
      exact hSuccessors hRest

----
-- The module level
----

theorem entryBlock?_left (hEntry : m.entryBlock? o i = .ok first?) :
    m'.entryBlock? o i = .ok first? ∧ ∀ b, first? = some b → ∃ r ∈ op.regions, ∃ bs,
        m.regionBlocks r = .ok bs ∧ b ∈ bs := by
  unfold entryBlock? at hEntry ⊢
  rw [hShape.before, ok_bind] at hEntry
  rw [hShape.after, ok_bind, redirect_regions]
  cases hAt : op.regions[i]? with
  | none =>
    rw [hAt] at hEntry
    cases hEntry
    exact ⟨rfl, by simp⟩
  | some r =>
    rw [hAt] at hEntry
    have hListed : r ∈ op.regions := List.mem_of_getElem? hAt
    rcases bind_eq_ok_iff.mp hEntry with ⟨region, hRegion, hDone⟩
    cases hDone
    rcases hReduces.firstBlock?_left hShape hListed hRegion with
      ⟨region', hRegion', hFirst, hBlocks⟩
    refine ⟨bind_eq_ok_iff.mpr ⟨region', hRegion', by rw [hFirst]; rfl⟩, fun b hHead => ?_⟩
    exact ⟨r, hListed, _, hBlocks, List.mem_of_head? hHead⟩

theorem verifyFunc_left (hAnswers : Answers (verifyFunc records m o) ()) :
    Answers (verifyFunc records m' o) () := by
  refine hShape.look (fun hAnswers => ?_) hAnswers
  simp only [redirect_symName?, hShape.ensure_eq, hShape.typeAttr_eq]
  refine answers_bind_imp (fun _ _ hRest => ?_) hAnswers
  refine answers_bind_imp (fun t _ hRest => ?_) hRest
  cases hSignature : t.signature? with
  | none =>
    rw [hSignature] at hRest
    exact absurd hRest not_answers_reject
  | some signature =>
    rw [hSignature] at hRest
    rcases answers_bind.mp hRest with ⟨first?, hEntry, hRest⟩
    rcases hReduces.entryBlock?_left hShape (answers_lift.mp hEntry) with ⟨hEntry', hListed⟩
    refine answers_bind.mpr ⟨first?, answers_lift.mpr hEntry', ?_⟩
    cases first? with
    | none => exact hReduces.verifyTerminated_left hShape hRest
    | some b =>
      rcases hListed b rfl with ⟨r, hRegion, bs, hBlocks, hBlock⟩
      rcases answers_bind.mp hRest with ⟨info, hInfo, hRest⟩
      rcases hReduces.args_left hShape hRegion hBlocks hBlock (answers_lift.mp hInfo) with
        ⟨info', hInfo', hArgs, hTypes⟩
      refine answers_bind.mpr ⟨info', answers_lift.mpr hInfo', ?_⟩
      rw [hArgs]
      unfold checkedTypes at hRest ⊢
      rw [typesOf_eq hTypes]
      iterate 2 refine answers_bind_imp (fun _ _ hRest => ?_) hRest
      exact hReduces.verifyTerminated_left hShape hRest

theorem verifyDispatchTable_left (hAnswers : Answers (m.verifyDispatchTable o) ()) :
    Answers (m'.verifyDispatchTable o) () := by
  refine hShape.look (fun hAnswers => ?_) hAnswers
  simp only [redirect_symName?, redirect_regions, hShape.ensure_eq]
  refine answers_bind_imp (fun _ _ hRest => ?_) hAnswers
  rw [answers_forM] at hRest ⊢
  intro r hListed
  rw [hReduces.regionBlocks_left hShape hListed]
  refine answers_bind_imp (fun bs hBlocks hBody => ?_) (hRest r hListed)
  rw [answers_forM] at hBody ⊢
  intro b hBlock
  rcases answers_bind.mp (hBody b hBlock) with ⟨os, hOps, hInner⟩
  rcases hReduces.region_of_block hShape hListed (answers_lift.mp hBlocks) hBlock with
    ⟨info, region', hInfo, hRegion'⟩
  refine answers_bind.mpr ⟨_, answers_lift.mpr
    (hReduces.blockOps_left hInfo hRegion' (answers_lift.mp hOps)), ?_⟩
  rw [answers_forM] at hInner ⊢
  intro inner hMember
  rcases List.mem_filter.mp hMember with ⟨hIn, hStays⟩
  rcases answers_bind.mp (hInner inner hIn) with ⟨entry, hEntry, hKind⟩
  have hEntryKind : entry.kind = .dtEntry := by simpa [answers_ensure] using hKind
  have hOld := op_eq_ok_iff.mp (answers_checkedOp.mp hEntry)
  rcases hReduces.opsLeft inner entry hOld (by simpa using hStays) with ⟨entry', hNew⟩
  rcases hReduces.ops inner entry' hNew with ⟨same, hSame, hReduced⟩
  cases hOld.symm.trans hSame
  have hRedirect := hReduced.of_kind (by rw [hEntryKind]; rfl)
  subst hRedirect
  exact answers_bind.mpr ⟨_, answers_checkedOp.mpr (op_eq_ok_iff.mpr hNew), hKind⟩

theorem verifyPlacement_left (hAnswers : Answers (m.verifyPlacement o) ()) :
    Answers (m'.verifyPlacement o) () := by
  have hEntry := op_eq_ok_iff.mp hShape.after
  have hSame : m'.parentBlock? o = m.parentBlock? o := hReduces.places o _ hEntry
  rcases verifyPlacement_answers hShape.before hAnswers with ⟨hNone, hSome⟩
  refine answers_verifyPlacement hShape.after
    (fun hPlace => hNone (hSame ▸ hPlace)) fun b hPlace => ?_
  rw [hSame] at hPlace
  rcases hSome b hPlace with ⟨hSymbol, hLast⟩
  refine ⟨hSymbol, fun hKind => ?_⟩
  rcases hReduces.place_left hEntry hPlace with ⟨info, region, hInfo, -, hRegion'⟩
  exact (hReduces.terminator?_left hInfo hRegion' (hLast hKind)).1

variable (hVerified : m.Verified records) (hLive : m.Live o)
include hVerified hLive

/- An initializer still ends with a value of the same type. -/
theorem initializerValue?_left (hListed : r ∈ op.regions)
    (hBlocks : m.regionBlocks r = .ok bs) (hBlock : b ∈ bs)
    (hValue : m.initializerValue? b = .ok (some v)) :
    m'.initializerValue? b = .ok (some (σ v)) ∧ m'.typeOf (σ v) = m.typeOf v := by
  rcases bind_eq_ok_iff.mp hValue with ⟨last?, hLast, hRest⟩
  cases last? with
  | none => cases hRest
  | some last =>
    rcases bind_eq_ok_iff.mp hRest with ⟨found, hFound, hDone⟩
    rcases hReduces.region_of_block hShape hListed hBlocks hBlock with
      ⟨info, region', hInfo, hRegion'⟩
    rcases hReduces.terminator?_left hInfo hRegion' hLast with ⟨hLast', _, hOld, hNew⟩
    cases hOld.symm.trans (op_eq_ok_iff.mp hFound)
    rcases terminator?_eq_some.mp hLast with ⟨os, -, hOps, hEnd, -⟩
    have hInner : m.Live last := hLive.within ⟨op, r, bs, b, os, op_eq_ok_iff.mp hShape.before,
        hListed, hBlocks, hBlock, hOps, List.mem_of_getLast? hEnd⟩
    split at hDone
    · rename_i w hKind hOperands
      cases hDone
      have hOperand : v ∈ found.operands := by simp [hOperands]
      refine ⟨bind_eq_ok_iff.mpr ⟨some last, hLast', bind_eq_ok_iff.mpr
          ⟨_, op_eq_ok_iff.mpr hNew, ?_⟩⟩, ?_⟩
      · rw [redirect_kind, redirect_operands, hKind, hOperands]
        rfl
      · exact (hReduces.operand_left hVerified hInner
          (op_eq_ok_iff.mpr hOld) (op_eq_ok_iff.mpr hNew) hOperand).1
    · cases hDone

theorem verifyGlobal_left (hAnswers : Answers (verifyGlobal records m o) ()) :
    Answers (verifyGlobal records m' o) () := by
  refine hShape.look (fun hAnswers => ?_) hAnswers
  simp only [redirect_symName?, redirect_attr?,
    redirect_regions, hShape.ensure_eq,
    hShape.typeAttr_eq, hShape.reject_eq, hShape.verifyLinkage_eq]
  refine answers_bind_imp (fun _ _ hRest => ?_) hAnswers
  refine answers_bind_imp (fun t _ hRest => ?_) hRest
  split at hRest
  · rcases answers_bind.mp hRest with ⟨_, hReject, -⟩
    exact absurd hReject not_answers_reject
  · refine answers_bind_imp (fun _ _ hRest => ?_) hRest
    refine answers_bind_imp (fun r hRegion hRest => ?_) hRest
    have hListed : r ∈ op.regions := List.mem_of_getElem?
        (orElse_eq_ok_iff.mp (answers_lift.mp hRegion))
    rw [hReduces.regionBlocks_left hShape hListed]
    refine answers_bind_imp (fun bs hBlocks hRest => ?_) hRest
    rcases bs with _ | ⟨b, bs⟩
    · exact hRest
    · refine answers_bind_imp (fun _ _ hRest => ?_) hRest
      rcases answers_bind.mp hRest with ⟨value?, hValue, hRest⟩
      cases value? with
      | none => exact absurd hRest not_answers_reject
      | some v =>
        rcases hReduces.initializerValue?_left hShape hVerified
            hLive hListed (answers_lift.mp hBlocks)
            (.head _) (answers_lift.mp hValue) with ⟨hValue', hType⟩
        refine answers_bind.mpr ⟨some (σ v), answers_lift.mpr hValue', ?_⟩
        simp only [checkedType, hType] at hRest ⊢
        exact hRest

----
-- Operations and modules
----

theorem verifyKind_left
    (hComplete : m'.Complete) (hAnswers : Answers (verifyKind records m o op.kind) ()) :
    Answers (verifyKind records m' o op.kind) () := by
  cases hKind : op.kind
  all_goals rw [hKind] at hAnswers
  case constant | undefined | freeMem | load | store | convert | addF | subF | mulF | divF | addI
      | subI | mulI | cmpF | cmpI | embox | boxAddr | genTypeDesc | unreachable =>
    exact answers_of_eq (hShape.verifyKind_eq rfl) hAnswers
  case alloca | allocMem => exact answers_of_eq hShape.verifyAlloc_eq hAnswers
  case call => exact hReduces.verifyCall_left hVerified hComplete hShape hAnswers
  case addressOf => exact hReduces.verifyAddressOf_left hVerified hComplete hShape hAnswers
  case ifOp => exact hReduces.verifyIf_left hShape hAnswers
  case doLoop | iterateWhile =>
      exact hReduces.verifyLoop_left hShape (by rw [hKind]; rfl) hAnswers
  case result => exact hReduces.verifyResult_left hShape hAnswers
  case select | selectCase | selectRank | selectType =>
      exact hReduces.verifySelect_left hShape (by rw [hKind]; rfl) hAnswers
  case br => exact hReduces.verifyBr_left hShape hAnswers
  case condBr => exact hReduces.verifyCondBr_left hShape hKind hAnswers
  case ret => exact hReduces.verifyReturn_left hShape hAnswers
  case func => exact hReduces.verifyFunc_left hShape hAnswers
  case global => exact hReduces.verifyGlobal_left hShape hVerified hLive hAnswers
  case hasValue => exact hReduces.verifyHasValue_left hShape hAnswers
  case dispatchTable => exact hReduces.verifyDispatchTable_left hShape hAnswers
  case dtEntry => exact hReduces.verifyDtEntry_left hShape hAnswers

omit hShape in
theorem verifyOp_redirect (hComplete : m'.Complete) (hOp : m.op o = .ok op)
    (hOp' : m'.op o = .ok (op.redirect σ)) : Answers (verifyOp records m' o) () := by
  have hShape := hReduces.sameShape hVerified hLive hOp hOp'
  rcases verifyOp_answers.mp (hVerified.ops o hLive) with ⟨found, hFound, -, hPlacement, hKind⟩
  cases hOp.symm.trans hFound
  refine verifyOp_answers.mpr ⟨_, hOp', ?_, ?_, ?_⟩
  · refine verifyOperands_answers.mpr fun w hOperand => ?_
    rcases List.mem_map.mp hOperand with ⟨v, hIn, rfl⟩
    exact (hReduces.operand_left hVerified hLive hOp hOp' hIn).2
  · exact hReduces.verifyPlacement_left hShape hPlacement
  · rw [redirect_kind]
    exact hReduces.verifyKind_left hShape hVerified hLive hComplete hKind

omit hShape in
/- What became a constant passes as one. -/
theorem verifyOp_settle (hOp : m.op o = .ok op)
    (hKind : op.kind.isArithmetic = true) {value : Attr} (hOp' : m'.op o = .ok (op.settle value))
    (hResult : op.results = [v]) (hType : m.typeOf v = .ok t)
    (hFits : constantFits value t = true) : Answers (verifyOp records m' o) () := by
  have hEntry := op_eq_ok_iff.mp hOp'
  rcases verifyOp_answers.mp (hVerified.ops o hLive) with ⟨found, _, -, hPlacement, -⟩
  rcases verifyPlacement_answers hOp hPlacement with ⟨hNone, -⟩
  refine verifyOp_answers.mpr ⟨_, hOp', ?_, ?_, ?_⟩
  · exact verifyOperands_answers.mpr nofun
  · refine answers_verifyPlacement hOp' (fun hPlace => ?_) fun b _ => ⟨rfl, nofun⟩
    -- arithmetic is not a symbol, so it is in a block
    rw [parentBlock?, hReduces.places o _ hEntry] at hPlace
    have hSymbol := hNone hPlace
    exact absurd hSymbol (by
      revert hKind
      cases op.kind <;> decide)
  · have hResult' : (op.settle value).results = [v] := hResult
    have hType' : m'.typeOf v = .ok t := by
      rw [hReduces.results_eq hEntry (by simp [hResult'])]
      exact hType
    change Answers (verifyConstant records m' o) ()
    unfold verifyConstant verifyCounts
    simp only [checkedOp_eq hOp', pure_bind, answers_bind, answers_ensure]
    refine ⟨(), ⟨(), rfl, by rw [hResult']; rfl⟩, t, ?_, ?_⟩
    · unfold resultType result
      rw [hResult']
      exact answers_bind.mpr ⟨v, rfl, answers_checkedType.mpr hType'⟩
    · exact answers_ensure.mpr hFits

end

end Reduces

/- What is within an operation that is left exists. -/
theorem Reduces.op_of_live (hReduces : m.Reduces σ gone m')
    (hComplete : m'.Complete) (hLive : m'.Live o) (hOp : m.op o = .ok op) :
    ∃ op', m'.op o = .ok op' := by
  cases hLive with
  | top hIn => exact hComplete o hIn
  | within _ hWithin =>
    rcases hWithin with ⟨outer, r, bs, b, os, -, -, _, _, hOps, hIn⟩
    rcases blockOps_eq_ok_iff.mp hOps with ⟨info, region', -, hRegion', hListed⟩
    rcases hReduces.regions _ region' hRegion' with ⟨region, _, rfl⟩
    rw [ops?_trimmed, Option.map_eq_some_iff] at hListed
    rcases hListed with ⟨before, -, rfl⟩
    rcases hReduces.opsLeft o op (op_eq_ok_iff.mp hOp)
        (by simpa using (List.mem_filter.mp hIn).2) with ⟨op', hOp'⟩
    exact ⟨op', op_eq_ok_iff.mpr hOp'⟩

/- The constants of a module fit the results that they are for. -/
def FitsResults (m m' : Module) : Prop := ∀ (o : OpId) (op : Operation) (value : Attr), m.Live o →
    m.op o = .ok op → op.kind.isArithmetic = true → m'.op o = .ok (op.settle value) →
    ∃ v t, op.results = [v] ∧ m.typeOf v = .ok t ∧ constantFits value t = true

/- A reduction keeps a module verified. -/
theorem Reduces.verified (hReduces : m.Reduces σ gone m') (hVerified : m.Verified records)
    (hComplete : m'.Complete) (hFits : m.FitsResults m') :
    m'.Verified records := by
  refine ⟨?_, fun o hLive' => ?_⟩
  · have hNames := hReduces.symbolNames_left hComplete
    rw [hReduces.top] at hNames ⊢
    exact hVerified.names.sublist hNames
  · have hLive := hReduces.live_before hLive'
    rcases hVerified.op_of_live hLive with ⟨op, hOp⟩
    rcases hReduces.op_of_live hComplete hLive' hOp with ⟨op', hOp'⟩
    rcases hReduces.ops o op' (op_eq_ok_iff.mp hOp') with ⟨found, hFound, hReduced⟩
    cases (op_eq_ok_iff.mp hOp).symm.trans hFound
    rcases hReduced with rfl | ⟨hKind, -, value, rfl⟩
    · exact hReduces.verifyOp_redirect hVerified hLive hComplete hOp hOp'
    · rcases hFits o op value hLive hOp hKind hOp' with ⟨v, t, hResult, hType, hValue⟩
      exact hReduces.verifyOp_settle hVerified hLive hOp hKind hOp' hResult hType hValue

end Module

end FortranIR
