import FortranIR.Proofs.Verification.Parts

/-
  This file proves that a module without complaints is well
  structured.

  Every block of a function, conditional or loop ends with its
  only terminator, of a kind that may stand there. Returns, ends
  of structured regions, entry blocks, branches and loops pass
  values of the types that are expected where these go.

  No single check says so: the checks of an operation look at
  its parent, at its place or at its parts, and only together
  they cover a block.

  Main declarations:
    * `OpKind.mayEnd`
    * `Module.Reached.structured_of_verified`
-/

namespace FortranIR

open Segments

variable {args : List ValueId} {kind : OpKind}

----
-- Well-structured operations
----

namespace OpKind

/- The kinds whose regions hold code that is run. -/
def isStructured (kind : OpKind) : Bool := kind == .func || kind == .ifOp || kind.isLoop

/-
  A terminator may end a block directly in an operation. Only
  functions are returned from, only conditionals and loops have
  results to give, and initial values belong to globals.
-/
def mayEnd (outer : OpKind) : OpKind → Bool
  | .result => outer != .func
  | .ret => outer == .func
  | .hasValue => outer == .global
  | kind => kind.isTerminator

end OpKind

/- The types that a function of a type returns. -/
def Ty.returned (t : Ty) : List Ty := (t.signature?.map Prod.snd).getD []

namespace Module

/-
  A block holds exactly one terminator, as its last operation,
  and of a kind that may stand in an operation of the given one.
-/
def EndsOnce (m : Module) (outer : OpKind) (b : BlockId) : Prop := ∃ before last op,
    m.blockOps b = .ok (before ++ [last]) ∧ m.op last = .ok op ∧ op.kind.isTerminator = true ∧
    outer.mayEnd op.kind = true ∧
    ∀ p ∈ before, ∃ other, m.op p = .ok other ∧ other.kind.isTerminator = false

/-
  A branch passes some values to a placed block of its own
  region, and these are of the types of the block's arguments.
-/
def PassesTo (m : Module) (o : OpId) (dest : BlockId) (args : List ValueId) : Prop :=
  ∃ home here info types, m.parentBlock? o = some home ∧ m.block home = .ok here ∧
    m.block dest = .ok info ∧ here.region = info.region ∧ m.isPlaced dest = .ok true ∧
    m.typesOf info.args = .ok types ∧ m.typesOf args = .ok types

/-
  The operands of a branch are what it looks at, the segments
  that its cases compare with, and one segment of arguments for
  each successor.
-/
structure Divides (m : Module) (o : OpId) (op : Operation) (head : List ValueId)
    (compares targets : List (List ValueId)) : Prop where
  operands : op.operands = head ++ compares.flatten ++ targets.flatten
  compared : ∀ i vs, compares[i]? = some vs → m.compareOperands o i = .ok vs
  count : targets.length = op.successors.length
  passed : ∀ i dest args, op.successors[i]? = some dest → targets[i]? = some args →
      m.successorOperands o i = .ok args ∧ m.PassesTo o dest args

/- What an operation of each kind passes on, and where. -/
structure Structured (m : Module) (o : OpId) (op : Operation) : Prop where
  blocks : op.kind.isStructured = true → ∀ r ∈ op.regions, ∃ bs, m.regionBlocks r = .ok bs ∧
        ∀ b ∈ bs, m.EndsOnce op.kind b
  entry : op.kind = .func → ∃ t params results, (op.attr? "type").bind Attr.type? = some t ∧
        t.signature? = some (params, results) ∧
        ∀ b, m.entryBlock? o 0 = .ok (some b) → ∃ info, m.block b = .ok info ∧
            m.typesOf info.args = .ok params
  returned : op.kind = .ret → ∃ f func t, m.parentOp? o = .ok (some f) ∧ m.op f = .ok func ∧
        func.kind = .func ∧ (func.attr? "type").bind Attr.type? = some t ∧
        m.typesOf op.operands = .ok t.returned
  given : op.kind = .result → ∃ p parent types, m.parentOp? o = .ok (some p) ∧ m.op p = .ok parent ∧
        (parent.kind = .ifOp ∨ parent.kind.isLoop = true) ∧ m.typesOf op.operands = .ok types ∧
        m.typesOf parent.results = .ok types
  br : op.kind = .br → ∃ args, m.Divides o op [] [] [args]
  condBr : op.kind = .condBr → ∃ cond targets, m.Divides o op [cond] [] targets
  select : op.kind.isSelect = true → ∃ selector compares targets,
        m.Divides o op [selector] compares targets ∧
        (op.kind = .selectCase → compares.length = op.successors.length) ∧
        (op.kind ≠ .selectCase → compares = [])
  loop : op.kind.isLoop = true → ∃ parts types, m.loopParts o = .ok parts ∧
        op.operands = parts.lower :: parts.upper :: parts.step ::
          (parts.iterateIn.toList ++ parts.inits) ∧
        m.typesOf (carriedResults op parts) = .ok types ∧ m.typesOf parts.inits = .ok types ∧
        m.typesOf parts.carried = .ok types

variable {m : Module} {records : RecordTable} {o : OpId} {op : Operation}

----
-- Functions, conditionals and loops
----

section

variable (hOp : m.op o = .ok op)

include hOp

theorem verifyFunc_answers (hAnswers : Answers (verifyFunc records m o) ()) :
    (∃ t params results, (op.attr? "type").bind Attr.type? = some t ∧
      t.signature? = some (params, results) ∧
      ∀ b, m.entryBlock? o 0 = .ok (some b) → ∃ info, m.block b = .ok info ∧
          m.typesOf info.args = .ok params) ∧ Answers (m.verifyTerminated o) () := by
  unfold verifyFunc at hAnswers
  simp only [answers_bind, answers_checkedOp, hOp, Except.ok.injEq, exists_eq_left', answers_ensure,
    answers_typeAttr] at hAnswers
  rcases hAnswers with ⟨-, -, t, hType, hRest⟩
  cases hSignature : t.signature? with
  | none =>
    simp only [hSignature] at hRest
    exact absurd hRest not_answers_reject
  | some signature =>
    rcases signature with ⟨params, results⟩
    simp only [hSignature, answers_bind, answers_lift] at hRest
    rcases hRest with ⟨entry, hEntry, hRest⟩
    cases entry with
    | none =>
      refine ⟨⟨t, params, results, hType, hSignature, ?_⟩, hRest⟩
      intro b hBlock
      rw [hEntry] at hBlock
      cases hBlock
    | some b =>
      simp only [answers_bind, answers_lift, answers_checkedTypes, answers_ensure,
        beq_iff_eq] at hRest
      rcases hRest with ⟨info, hInfo, args, hArgs, -, rfl, hTerminated⟩
      refine ⟨⟨t, args, results, hType, hSignature, ?_⟩, hTerminated⟩
      intro c hBlock
      rw [hEntry] at hBlock
      cases hBlock
      exact ⟨info, hInfo, hArgs⟩

theorem verifyIf_answers (hAnswers : Answers (m.verifyIf o) ()) :
    Answers (m.verifyTerminated o) () := by
  unfold verifyIf at hAnswers
  simp only [answers_bind, answers_checkedOp, hOp, Except.ok.injEq, exists_eq_left'] at hAnswers
  split at hAnswers
  · simp only [answers_bind] at hAnswers
    rcases hAnswers with ⟨_, -, _, -, _, -, hRest⟩
    split at hRest
    · simp only [answers_bind] at hRest
      rcases hRest with ⟨_, -, _, -, _, -, _, -, _, -, _, -, hDone⟩
      exact hDone
    · exact absurd hRest not_answers_reject
  · simp only [answers_bind, answers_pure, answers_ensure] at hAnswers
    rcases hAnswers with ⟨_, rfl, _, hCondition, -⟩
    cases hCondition

omit hOp in
/- Lists of the same length with the same types, one by one. -/
theorem verifyCarried_answers
    (hAnswers : Answers (m.verifyCarried o rs is as) ()) (hInits : rs.length = is.length)
    (hArgs : is.length = as.length) :
    ∃ types, m.typesOf rs = .ok types ∧ m.typesOf is = .ok types ∧ m.typesOf as = .ok types := by
  induction rs generalizing is as with
  | nil =>
    have hNoInits : is = [] := List.length_eq_zero_iff.mp hInits.symm
    subst hNoInits
    have hNoArgs : as = [] := List.length_eq_zero_iff.mp hArgs.symm
    subst hNoArgs
    exact ⟨[], rfl, rfl, rfl⟩
  | cons r rs ih =>
    cases is with
    | nil => cases hInits
    | cons i is =>
      cases as with
      | nil => cases hArgs
      | cons a as =>
        unfold verifyCarried at hAnswers
        simp only [answers_bind, answers_checkedType, answers_ensure, Bool.and_eq_true,
          beq_iff_eq] at hAnswers
        rcases hAnswers with ⟨t, hResult, _, hInit, _, hArg, -, ⟨rfl, rfl⟩, hRest⟩
        rcases ih hRest (Nat.succ.inj hInits) (Nat.succ.inj hArgs) with
          ⟨types, hResults, hInits', hArgs'⟩
        simp only [typesOf_eq_ok_iff] at hResults hInits' hArgs' ⊢
        exact ⟨t :: types, .cons hResult hResults, .cons hInit hInits', .cons hArg hArgs'⟩

theorem verifyLoop_answers
    (hAnswers : Answers (verifyLoop records m o) ()) : (∃ parts types, m.loopParts o = .ok parts ∧
      op.operands = parts.lower :: parts.upper :: parts.step ::
        (parts.iterateIn.toList ++ parts.inits) ∧ m.typesOf (carriedResults op parts) = .ok types ∧
      m.typesOf parts.inits = .ok types ∧ m.typesOf parts.carried = .ok types) ∧
      Answers (m.verifyTerminated o) () := by
  unfold verifyLoop at hAnswers
  simp only [answers_bind, answers_checkedOp, hOp, Except.ok.injEq, exists_eq_left', answers_ensure,
    answers_lift] at hAnswers
  rcases hAnswers with ⟨-, -, -, -, region, -, blocks, -, -, -, parts, hParts, -, -,
      _, -, -, -, hCarried⟩
  have hOperands := (loopParts_eq_ok hOp hParts).1
  have hAgree : ∃ results, results = carriedResults op parts ∧
      (results.length == parts.inits.length &&
        parts.inits.length == parts.carried.length) = true ∧
      Answers (m.verifyCarried o results parts.inits parts.carried) () ∧
      Answers (m.verifyTerminated o) () := by
    cases hOk : parts.iterateIn with
    | none =>
      simp only [hOk, answers_bind, answers_pure, answers_ensure] at hCarried
      rcases hCarried with ⟨results, rfl, -, hCounts, _, hTypes, hEnds⟩
      exact ⟨_, by simp [carriedResults, LoopParts.leading, hOk], hCounts, hTypes, hEnds⟩
    | some ok =>
      simp only [hOk, answers_bind, answers_pure, answers_ensure] at hCarried
      rcases hCarried with ⟨_, -, -, -, _, -, -, -, _, -, -, -, results, rfl, -,
          hCounts, _, hTypes, hEnds⟩
      exact ⟨_, by simp [carriedResults, LoopParts.leading, hOk], hCounts, hTypes, hEnds⟩
  rcases hAgree with ⟨results, rfl, hCounts, hTypes, hEnds⟩
  rw [Bool.and_eq_true, beq_iff_eq, beq_iff_eq] at hCounts
  rcases verifyCarried_answers hTypes hCounts.1 hCounts.2 with ⟨types, hSame⟩
  exact ⟨⟨parts, types, hParts, hOperands, hSame⟩, hEnds⟩

/- The blocks of structured operations end with terminators. -/
theorem verifyTerminated_of_verifyKind (hKind : op.kind.isStructured = true)
    (hAnswers : Answers (verifyKind records m o op.kind) ()) :
    Answers (m.verifyTerminated o) () := by
  cases hCase : op.kind with
  | func =>
    rw [hCase] at hAnswers
    exact (verifyFunc_answers hOp hAnswers).2
  | ifOp =>
    rw [hCase] at hAnswers
    exact verifyIf_answers hOp hAnswers
  | doLoop | iterateWhile =>
    rw [hCase] at hAnswers
    exact (verifyLoop_answers hOp hAnswers).2
  | _ =>
    rw [hCase] at hKind
    cases hKind

----
-- Ends of blocks
----

theorem verifyResult_answers (hAnswers : Answers (m.verifyResult o) ()) :
    ∃ p parent types, m.parentOp? o = .ok (some p) ∧ m.op p = .ok parent ∧
      (parent.kind = .ifOp ∨ parent.kind.isLoop = true) ∧ m.typesOf op.operands = .ok types ∧
      m.typesOf parent.results = .ok types := by
  unfold verifyResult at hAnswers
  simp only [answers_bind, answers_lift] at hAnswers
  rcases hAnswers with ⟨parent?, hParent, hRest⟩
  cases parent? with
  | none => exact absurd hRest not_answers_reject
  | some p =>
    simp only [answers_bind, answers_checkedOp, answers_ensure,
      answers_checkedTypes, hOp, Except.ok.injEq,
      exists_eq_left', Bool.or_eq_true, beq_iff_eq] at hRest
    rcases hRest with ⟨parent, hFound, -, hKind, types, hTypes, _, hResults, -, -, rfl⟩
    exact ⟨p, parent, types, hParent, hFound, hKind, hTypes, hResults⟩

theorem verifyReturn_answers (hAnswers : Answers (m.verifyReturn o) ()) :
    ∃ f func t, m.parentOp? o = .ok (some f) ∧ m.op f = .ok func ∧ func.kind = .func ∧
      (func.attr? "type").bind Attr.type? = some t ∧ m.typesOf op.operands = .ok t.returned := by
  unfold verifyReturn at hAnswers
  simp only [answers_bind, answers_lift] at hAnswers
  rcases hAnswers with ⟨parent?, hParent, hRest⟩
  cases parent? with
  | none =>
    simp only [answers_bind, answers_pure] at hRest
    rcases hRest with ⟨_, rfl, hReject⟩
    exact absurd hReject not_answers_reject
  | some f =>
    simp only [answers_bind, answers_checkedOp] at hRest
    rcases hRest with ⟨func, hFunc, hRest⟩
    by_cases hKind : func.kind = .func
    · simp only [hKind, if_true, answers_bind, answers_pure] at hRest
      simp only [answers_bind, answers_typeAttr, answers_checkedOp, answers_checkedTypes,
        answers_ensure, hOp, hFunc, Except.ok.injEq, exists_eq_left', beq_iff_eq] at hRest
      rcases hRest with ⟨t, hType, _, hTypes, rfl⟩
      exact ⟨f, func, t, hParent, hFunc, hKind, hType, hTypes⟩
    · simp only [hKind, if_false, answers_bind, answers_pure] at hRest
      rcases hRest with ⟨_, rfl, hReject⟩
      exact absurd hReject not_answers_reject

omit hOp in
theorem verifyHasValue_answers (hAnswers : Answers (m.verifyHasValue o) ()) : ∃ p parent,
      m.parentOp? o = .ok (some p) ∧ m.op p = .ok parent ∧ parent.kind = .global := by
  unfold verifyHasValue at hAnswers
  simp only [answers_bind, answers_lift] at hAnswers
  rcases hAnswers with ⟨-, -, parent?, hParent, hRest⟩
  cases parent? with
  | none =>
    simp only [answers_bind, answers_pure, answers_ensure] at hRest
    rcases hRest with ⟨_, rfl, hFalse⟩
    cases hFalse
  | some p =>
    simp only [answers_bind, answers_checkedOp, answers_pure, answers_ensure] at hRest
    rcases hRest with ⟨parent, hFound, _, rfl, hKind⟩
    exact ⟨p, parent, hParent, hFound, eq_of_beq hKind⟩

/- A terminator may stand in the operation around it. -/
theorem mayEnd_of_verifyKind
    (hKind : op.kind.isTerminator = true) (hParent : m.parentOp? o = .ok (some p))
    (hFound : m.op p = .ok parent) (hAnswers : Answers (verifyKind records m o op.kind) ()) :
    parent.kind.mayEnd op.kind = true := by
  have hSame : ∀ {q : OpId} {other : Operation}, m.parentOp? o = .ok (some q) → m.op q = .ok other →
        other = parent := by
    intro q other hQ hOther
    rw [hParent, Except.ok.injEq, Option.some.injEq] at hQ
    rw [← hQ, hFound, Except.ok.injEq] at hOther
    exact hOther.symm
  cases hCase : op.kind with
  | result =>
    rw [hCase] at hAnswers
    rcases verifyResult_answers hOp hAnswers with ⟨q, other, types, hQ, hOther, hOuter, -⟩
    rw [← hSame hQ hOther]
    rcases hOuter with hIf | hLoop
    · simp [OpKind.mayEnd, hIf]
    · unfold OpKind.mayEnd
      rw [bne_iff_ne]
      intro hFunc
      rw [hFunc] at hLoop
      cases hLoop
  | ret =>
    rw [hCase] at hAnswers
    rcases verifyReturn_answers hOp hAnswers with ⟨q, other, t, hQ, hOther, hFunc, -⟩
    rw [← hSame hQ hOther]
    simp [OpKind.mayEnd, hFunc]
  | hasValue =>
    rw [hCase] at hAnswers
    rcases verifyHasValue_answers hAnswers with ⟨q, other, hQ, hOther, hGlobal⟩
    rw [← hSame hQ hOther]
    simp [OpKind.mayEnd, hGlobal]
  | _ =>
    rw [hCase] at hKind
    exact hKind

/-
  In a verified module a block of a structured operation ends
  once: its last operation is a terminator by the check of the
  operation, and any terminator in it is the last operation by
  the check of that terminator.
-/
theorem endsOnce_of_verified (hKept : m.OwnersKept)
    (hWalk : m.walk = .ok walked) (hVerified : ∀ p ∈ walked, Answers (verifyOp records m p) ())
    (hMember : o ∈ walked) (hKind : op.kind.isStructured = true) :
    ∀ r ∈ op.regions, ∃ bs, m.regionBlocks r = .ok bs ∧ ∀ b ∈ bs, m.EndsOnce op.kind b := by
  rcases verifyOp_answers.mp (hVerified o hMember) with ⟨found, hFound, -, -, hAnswers⟩
  cases hOp.symm.trans hFound
  have hTerminated := (verifyTerminated_answers hOp).mp
      (verifyTerminated_of_verifyKind hOp hKind hAnswers)
  intro r hRegion
  rcases hTerminated r hRegion with ⟨bs, hBlocks, hEnds⟩
  refine ⟨bs, hBlocks, fun b hBlock => ?_⟩
  rcases hEnds b hBlock with ⟨last, hLast⟩
  rcases terminator?_eq_some.mp hLast with ⟨os, lastOp, hOps, hAtEnd, hLastOp, hLastKind⟩
  rcases List.getLast?_eq_some_iff.mp hAtEnd with ⟨before, rfl⟩
  have hWithin : ∀ p ∈ before ++ [last], m.Within o p := fun p hIn =>
      ⟨op, r, bs, b, _, op_eq_ok_iff.mp hOp, hRegion, hBlocks, hBlock, hOps, hIn⟩
  have hReached : ∀ p ∈ before ++ [last], p ∈ walked :=
    fun p hIn => mem_walk_of_within hWalk hMember (hWithin p hIn)
  rcases regionBlocks_eq_ok_iff.mp hBlocks with ⟨region, hInfo, rfl⟩
  have hHolds := (hKept.layouts _ region hInfo).2 b _ (hKept.mem_layout hInfo hBlock hOps)
  refine ⟨before, last, lastOp, hOps, hLastOp, hLastKind, ?_, ?_⟩
  · have hIn : last ∈ before ++ [last] := by simp
    rcases verifyOp_answers.mp (hVerified last (hReached last hIn))
      with ⟨same, hSame, -, -, hLastAnswers⟩
    cases hLastOp.symm.trans hSame
    exact mayEnd_of_verifyKind hLastOp hLastKind
      (hKept.parentOp_of_within (hWithin last hIn)) hOp hLastAnswers
  · intro p hBefore
    have hIn : p ∈ before ++ [last] := List.mem_append.mpr (.inl hBefore)
    rcases verifyOp_answers.mp (hVerified p (hReached p hIn)) with ⟨other, hOther, -, hPlacement, -⟩
    refine ⟨other, hOther, Bool.eq_false_iff.mpr fun hOtherKind => ?_⟩
    -- a terminator is the last operation of its block
    have hPlace : m.parentBlock? p = some b := hHolds.places p hIn
    have hSelf := ((verifyPlacement_answers hOther hPlacement).2 b hPlace).2 hOtherKind
    rw [hLast, Except.ok.injEq, Option.some.injEq] at hSelf
    subst hSelf
    exact (List.nodup_append.mp hHolds.distinct).2.2 last hBefore last (by simp) rfl

----
-- Branches
----

omit hOp in
theorem verifySuccessor_answers
    (hAnswers : Answers (m.verifySuccessor o dest args) ()) : m.PassesTo o dest args := by
  unfold verifySuccessor at hAnswers
  cases hPlace : m.parentBlock? o with
  | none =>
    simp only [hPlace, answers_bind, answers_pure, answers_lift, answers_ensure] at hAnswers
    rcases hAnswers with ⟨_, rfl, _, -, -, hFalse, -⟩
    cases hFalse
  | some home =>
    simp only [hPlace, answers_bind, answers_pure, answers_lift,
      answers_ensure, answers_checkedTypes, beq_iff_eq] at hAnswers
    rcases hAnswers with ⟨here, hHere, _, rfl, info, hInfo, -, hRegion, _, hPlaced,
        -, rfl, types, hParams, _, hArgs, rfl⟩
    exact ⟨home, here, info, types, hPlace, hHere, hInfo,
      Option.some.inj hRegion, hPlaced, hParams, hArgs⟩

omit hOp in
theorem verifySuccessors_answers {dests : List BlockId} {lists : List (List ValueId)}
    (hAnswers : Answers (m.verifySuccessors o dests lists) ()) {i : Nat} {dest : BlockId}
    (hDest : dests[i]? = some dest) (hArgs : lists[i]? = some args) :
    m.PassesTo o dest args := by
  induction dests generalizing lists i with
  | nil => simp at hDest
  | cons b bs ih =>
    cases lists with
    | nil => simp at hArgs
    | cons vs rest =>
      unfold verifySuccessors at hAnswers
      rw [answers_bind] at hAnswers
      rcases hAnswers with ⟨_, hFirst, hRest⟩
      cases i with
      | zero =>
        rw [List.getElem?_cons_zero, Option.some.injEq] at hDest
        rw [List.getElem?_cons_zero, Option.some.injEq] at hArgs
        subst hDest hArgs
        exact verifySuccessor_answers hFirst
      | succ i =>
        exact ih hRest hDest hArgs

theorem divides_br (hKind : op.kind = .br)
    (hAnswers : Answers (m.verifyBr o) ()) : ∃ args, m.Divides o op [] [] [args] := by
  unfold verifyBr at hAnswers
  simp only [answers_bind, answers_checkedOp, hOp, Except.ok.injEq, exists_eq_left'] at hAnswers
  split at hAnswers
  · rename_i dest hDest
    refine ⟨op.operands, by simp, by simp, by simp [hDest], ?_⟩
    intro i dest' args hAt hArgs
    cases i with
    | succ i => simp at hArgs
    | zero =>
      rw [List.getElem?_cons_zero, Option.some.injEq] at hArgs
      rw [hDest, List.getElem?_cons_zero, Option.some.injEq] at hAt
      subst hArgs hAt
      exact ⟨successorOperands_br hOp hKind, verifySuccessor_answers hAnswers⟩
  · exact absurd hAnswers not_answers_reject

theorem divides_condBr (hKind : op.kind = .condBr) (hAnswers : Answers (m.verifyCondBr o) ()) :
    ∃ cond targets, m.Divides o op [cond] [] targets := by
  unfold verifyCondBr at hAnswers
  simp only [answers_bind, answers_checkedOp, hOp, Except.ok.injEq, exists_eq_left', answers_ensure,
    answers_lift, answers_forM, beq_iff_eq] at hAnswers
  rcases hAnswers with ⟨-, hTwo, _, -, -, -, covered, hSizes, -, hCovered, hEach⟩
  have hArgs : ∀ i dest, op.successors[i]? = some dest →
        ∃ args, m.successorOperands o i = .ok args ∧ m.PassesTo o dest args := by
    intro i dest hDest
    rcases hEach (dest, i) (List.mk_mem_zipIdx_iff_getElem?.mpr hDest) with ⟨args, hFound, hPasses⟩
    exact ⟨args, hFound, verifySuccessor_answers hPasses⟩
  rcases List.length_eq_two.mp hTwo with ⟨b₀, b₁, hSuccessors⟩
  rcases hArgs 0 b₀ (by simp [hSuccessors]) with ⟨first, hFirst, -⟩
  rcases successorOperands_condBr_eq_ok hOp hKind hFirst with
    ⟨cond, rest, sizes, hOperands, hOffsets, hSum, hSegment⟩
  have hLength : sizes.length = 2 := by
    rw [hOffsets]
    refine length_offsets_of_branchSizes hSizes ?_ ?_
    · rw [hCovered, hOperands, List.length_cons]
      omega
    · rw [← hOffsets]
      rintro rfl
      simp [toLists, length] at hSegment
  refine ⟨cond, toLists ⟨rest, sizes⟩, ?_, by simp, ?_, ?_⟩
  · rw [flatten_toLists hSum, hOperands]
    simp
  · rw [length_toLists, hLength, hTwo]
  · intro i dest args hDest hTarget
    rcases hArgs i dest hDest with ⟨found, hFound, hPasses⟩
    rcases successorOperands_condBr_eq_ok hOp hKind hFound with
      ⟨cond', rest', sizes', hOperands', hOffsets', -, hSegment'⟩
    rw [hOperands] at hOperands'
    cases hOperands'
    rw [hOffsets', ← hOffsets, hTarget, Option.some.injEq] at hSegment'
    subst hSegment'
    exact ⟨hFound, hPasses⟩

/- Only branches on cases compare, and all pass their segments. -/
theorem verifySelect_answers (hAnswers : Answers (verifySelect records m o) ()) : ∃ parts,
      m.trySelectParts o = .ok (.ok parts) ∧ (op.kind ≠ .selectCase → parts.compare.items = []) ∧
      Answers (m.verifySuccessors o parts.dests parts.targets.toLists) () := by
  unfold verifySelect at hAnswers
  simp only [answers_bind, answers_checkedOp, hOp,
    Except.ok.injEq, exists_eq_left', answers_lift] at hAnswers
  rcases hAnswers with ⟨found, hFound, hRest⟩
  cases found with
  | error complaint => exact absurd hRest not_answers_reject
  | ok parts =>
    refine ⟨parts, hFound, ?_⟩
    simp only [answers_bind] at hRest
    rcases hRest with ⟨selector, -, hCases⟩
    split at hCases
    · rename_i hCase
      simp only [hCase, ne_eq, not_true, if_false, answers_bind] at hCases
      rcases hCases with ⟨_, -, _, -, _, -, hDone⟩
      exact ⟨fun hOther => absurd hCase hOther, hDone⟩
    all_goals
      simp only [answers_bind] at hCases
      rcases hCases with ⟨_, -, _, -, hCompare⟩
      by_cases hCase : op.kind = .selectCase
      · simp only [hCase, ne_eq, not_true, if_false, answers_bind] at hCompare
        rcases hCompare with ⟨_, -, hDone⟩
        exact ⟨fun hOther => absurd hCase hOther, hDone⟩
      · simp only [ne_eq, hCase, not_false_iff, if_true, answers_bind, answers_ensure,
          List.isEmpty_iff] at hCompare
        rcases hCompare with ⟨-, hNone, _, -, hDone⟩
        exact ⟨fun _ => hNone, hDone⟩

theorem divides_select (hAnswers : Answers (verifySelect records m o) ()) :
    ∃ selector compares targets, m.Divides o op [selector] compares targets ∧
      (op.kind = .selectCase → compares.length = op.successors.length) ∧
      (op.kind ≠ .selectCase → compares = []) := by
  rcases verifySelect_answers hOp hAnswers with ⟨parts, hParts, hNone, hSuccessors⟩
  rcases selectParts_answers ((trySelectParts_eq_ok_iff hOp).mp hParts).2 with
    ⟨hOperands, hDests, -, hCompares, hTargets⟩
  have hPassed : ∀ i dest args, op.successors[i]? = some dest →
        parts.targets.toLists[i]? = some args →
        m.successorOperands o i = .ok args ∧ m.PassesTo o dest args := by
    intro i dest args hDest hSegment
    rw [← hDests] at hDest
    exact ⟨successorOperands_select hOp hParts hSegment,
      verifySuccessors_answers hSuccessors hDest hSegment⟩
  by_cases hCase : op.kind = .selectCase
  · refine ⟨parts.selector, parts.compare.toLists,
      parts.targets.toLists, ⟨?_, ?_, hTargets, hPassed⟩,
      fun _ => hCompares, fun hOther => absurd hCase hOther⟩
    · rw [hOperands]
      simp
    · exact fun i vs hSegment => compareOperands_select hParts hSegment
  · -- the compare segments are all empty
    have hEmpty : parts.compare.toLists.flatten = [] := by
      rw [List.flatten_eq_nil_iff]
      intro segment hMember
      rcases List.mem_map.mp hMember with ⟨i, -, rfl⟩
      rw [hNone hCase]
      simp
    refine ⟨parts.selector, [], parts.targets.toLists, ⟨?_, by simp, hTargets, hPassed⟩,
      fun hSame => absurd hSame hCase, fun _ => rfl⟩
    rw [hOperands, hEmpty]
    simp

end

theorem verifyKind_select (hKind : kind.isSelect = true) :
    verifyKind records m o kind = verifySelect records m o := by
  cases kind with
  | select => rfl
  | selectCase => rfl
  | selectRank => rfl
  | selectType => rfl
  | _ => cases hKind

theorem verifyKind_loop (hKind : kind.isLoop = true) :
    verifyKind records m o kind = verifyLoop records m o := by
  cases kind with
  | doLoop => rfl
  | iterateWhile => rfl
  | _ => cases hKind

----
-- Verified modules
----

/-
  A module that callers can reach and that has no complaints is
  well structured, at every operation that is part of it.
-/
theorem Reached.structured_of_verified (hReached : m.Reached)
    (hVerified : Answers (verify records m) ()) : ∃ walked, m.walk = .ok walked ∧
      ∀ o ∈ walked, ∃ op, m.op o = .ok op ∧ m.Structured o op := by
  rcases verify_answers.mp hVerified with ⟨-, walked, hWalk, hEach⟩
  refine ⟨walked, hWalk, fun o hMember => ?_⟩
  rcases verifyOp_answers.mp (hEach o hMember) with ⟨op, hOp, -, -, hKind⟩
  refine ⟨op, hOp, ?_⟩
  exact
    { blocks :=
        endsOnce_of_verified hOp hReached.ownersKept hWalk hEach hMember
      entry := fun hCase => by
        rw [hCase] at hKind
        exact (verifyFunc_answers hOp hKind).1
      returned := fun hCase => by
        rw [hCase] at hKind
        exact verifyReturn_answers hOp hKind
      given := fun hCase => by
        rw [hCase] at hKind
        exact verifyResult_answers hOp hKind
      br := fun hCase => by
        rw [hCase] at hKind
        exact divides_br hOp hCase hKind
      condBr := fun hCase => by
        rw [hCase] at hKind
        exact divides_condBr hOp hCase hKind
      select := fun hCase => by
        rw [verifyKind_select hCase] at hKind
        exact divides_select hOp hKind
      loop := fun hCase => by
        rw [verifyKind_loop hCase] at hKind
        exact (verifyLoop_answers hOp hKind).1 }

/- A function of two blocks, with a branch on its argument. -/
def twoBlocks : List Change := [.newOp .func [] [] (.ofList [("sym_name", .str "f"),
        ("type", .type (.function [.i1, .index] [.index]))]) 1 [], .newBlock ⟨0⟩ [.i1, .index],
    .newBlock ⟨0⟩ [.index],
    .newOp .condBr [⟨0⟩, ⟨1⟩, ⟨1⟩] [] (.ofList [("target_operand_offsets", .ints [1, 1])])
      0 [⟨1⟩, ⟨1⟩], .appendOp ⟨0⟩ ⟨1⟩, .newOp .ret [⟨2⟩] [] {} 0 [], .appendOp ⟨1⟩ ⟨2⟩,
    .pushTop ⟨0⟩]

theorem Reached.structured_twoBlocks : ∃ m : Module, (emptyAfter {}).after twoBlocks = some m ∧
      m.Reached ∧ Answers (verify {} m) () ∧
      ∃ walked, m.walk = .ok walked ∧ ∀ o ∈ walked, ∃ op, m.op o = .ok op ∧ m.Structured o op := by
  have hFound : ∃ m ∈ (emptyAfter {}).after twoBlocks, Answers (verify {} m) () := by decide +kernel
  rcases hFound with ⟨m, hRun, hVerify⟩
  have hReached : m.Reached := (Reached.empty {}).after hRun
  exact ⟨m, hRun, hReached, hVerify, hReached.structured_of_verified hVerify⟩

end Module

end FortranIR
